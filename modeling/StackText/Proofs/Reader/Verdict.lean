import Mathlib
import StackText.Proofs.Reader.Conclusion
import StackText.Proofs.Reader.FencedText
import StackText.Proofs.Reader.FirstToken

/-! The verdict on a piece of text is exact. What is called incomplete can be completed, and what is
called malformed stays so whatever follows.
-/

namespace StackText

-----------------------------------------------------------------------------------------
-- A closing bracket stays where it is
-----------------------------------------------------------------------------------------

namespace Token

/-- A closing bracket is read alike whatever follows it, since it is one character. -/
theorem next?_append_of_closeBlock {text rest : List Char}
    (next : next? text = some (.closeBlock, rest)) (more : List Char)
    : next? (text ++ more) = some (.closeBlock, rest ++ more) := by
  unfold next? at next ⊢
  cases gap : behindGap false text with
  | nil => simp [gap] at next
  | cons c tail =>
      simp only [gap, Option.some.injEq, Prod.mk.injEq] at next
      obtain ⟨token, behind⟩ := next
      have bracket : c = ')' := by
        rw [read] at token
        split at token
        · cases token
        split at token
        · assumption
        split at token
        · split at token <;> cases token
        · cases token
      subst bracket
      cases behind
      rw [behindGap_append gap more]
      rfl

/-- The tokens up to a closing bracket stay whatever follows the text, by induction on them: each
has text behind it, namely the bracket.
-/
theorem sequence_append_of_closeBlock {text : List Char} {front back : List Token}
    (split : sequence text = front ++ .closeBlock :: back) (more : List Char)
    : ∃ later, sequence (text ++ more) = front ++ .closeBlock :: later := by
  induction front generalizing text with
  | nil =>
      obtain ⟨rest, next, _⟩ := next?_of_sequence_cons split
      exact ⟨_, sequence_of_next?_some (next?_append_of_closeBlock next more)⟩
  | cons token front ih =>
      obtain ⟨rest, next, onward⟩ := next?_of_sequence_cons split
      have behind : rest ≠ [] := by
        intro empty
        simp [empty] at onward
      obtain ⟨later, found⟩ := ih onward
      exact ⟨later, by rw [sequence_of_next?_some (next?_append next behind more), found]; rfl⟩

end Token

-----------------------------------------------------------------------------------------
-- Closing what is open
-----------------------------------------------------------------------------------------

namespace Draft

@[simp] theorem symbols_size_withLiteral (draft : Draft) (v : Value)
    : (draft.withLiteral v).store.symbols.size = draft.store.symbols.size + 1 :=
  Store.size_alloc draft.store v

/-- As many closing brackets as there are open blocks close them all, by induction on the blocks.
Each takes one id.
-/
theorem tokens_closeBlocks {draft : Draft}
    (room : draft.store.symbols.size + draft.outer.length ≤ idLimit)
    : ∃ last,
        draft.tokens (List.replicate draft.outer.length .closeBlock) = (last, none)
        ∧ last.outer = [] := by
  obtain ⟨store, outer, block⟩ := draft
  induction outer generalizing store block with
  | nil => exact ⟨_, rfl, rfl⟩
  | cons chunk outer ih =>
      simp only [List.length_cons] at room
      have closing : Draft.token ⟨store, chunk :: outer, block⟩ .closeBlock
          = (withLiteral ⟨store, outer, chunk⟩ (blockValue block store.symbols.size), none) :=
        @literal_of_lt ⟨store, outer, chunk⟩ (by simp only; omega) (blockValue block)
      have size := symbols_size_withLiteral ⟨store, outer, chunk⟩
        (blockValue block store.symbols.size)
      obtain ⟨last, closed, outside⟩ := ih
        (withLiteral ⟨store, outer, chunk⟩ (blockValue block store.symbols.size)).store
        (withLiteral ⟨store, outer, chunk⟩ (blockValue block store.symbols.size)).chunk
        (by simp only at size ⊢; omega)
      refine ⟨last, ?_, outside⟩
      rw [List.length_cons, List.replicate_succ, Draft.tokens, closing]
      exact closed

/-- A stray bracket is a token, and the tokens before it compile. -/
theorem closeBlock_of_strayClose {draft next : Draft} {tokens : List Token}
    (read : draft.tokens tokens = (next, some .strayClose))
    : ∃ front back before,
        tokens = front ++ .closeBlock :: back
        ∧ draft.tokens front = (before, none)
        ∧ before.token .closeBlock = (next, some .strayClose) := by
  obtain ⟨front, token, back, before, split, reached, here⟩ := tokens_stoppage read
  rcases token_stoppage here with ⟨rfl, _, _⟩ | ⟨_, _, same⟩ | ⟨_, _, _, _, same⟩ | ⟨_, same⟩
  · exact ⟨front, back, before, split, reached, here⟩
  · cases same
  · cases same
  · cases same

end Draft

namespace Reader

open Token

/-- Text that closes all that a reader has left open: a blank and a fence behind an open string, and
a bracket for each open block.
-/
def completion (reader : Reader) : List Char :=
  let fence :=
    match reader.held with
    | [] => []
    | quote :: rest => ' ' :: List.replicate (Fenced.openingRun (quote :: rest)) quote
  fence ++ List.replicate reader.depth ')'

theorem sequence_closeBlocks (count : Nat)
    : sequence (List.replicate count ')') = List.replicate count .closeBlock := by
  induction count with
  | zero => simp
  | succ count ih => rw [List.replicate_succ, sequence_closeBlock, ih, List.replicate_succ]

/-- What a reader holds of an incomplete text is nothing, or a string that the text leaves open. -/
theorem held_of_incomplete {reader : Reader} {store : Store} {piece : List Char}
    {what : Unfinished}
    (incomplete : (reader.compile store piece false).result = .error (.incomplete what))
    : (reader.compile store piece false).reader.held = []
      ∨ .unterminated (reader.compile store piece false).reader.held
          ∈ sequence (reader.held ++ piece) := by
  rw [compile_eq] at incomplete ⊢
  cases read : Draft.tokens ⟨store, reader.outer, reader.chunk⟩
      (sequence (reader.held ++ piece)) with
  | mk draft stoppage =>
      rw [read] at incomplete
      cases stoppage with
      | none =>
          simp only [conclude, unfinished] at incomplete ⊢
          split at incomplete
          · cases incomplete
          · next inside => exact .inl (by rw [if_neg inside]; rfl)
      | some stoppage =>
          cases stoppage with
          | strayClose | numeral fault | code fault => cases incomplete
          | unterminated rest => exact .inr (Draft.mem_of_unterminated read)

/-- Behind the completion a reader has a string, if one was open, and closing brackets. -/
theorem sequence_completion {reader : Reader} {text : List Char}
    (held : reader.held = [] ∨ .unterminated reader.held ∈ sequence text)
    : ∃ string : Option String,
        sequence (reader.held ++ reader.completion)
          = string.toList.map .string ++ List.replicate reader.depth .closeBlock := by
  rcases held with empty | member
  · exact ⟨none, by simp [completion, empty, sequence_closeBlocks]⟩
  · obtain ⟨quote, rest, held, isQuote, unread⟩ := read?_of_unterminated member
    obtain ⟨visible, _, _, closing⟩ := visible_of_isQuote isQuote
    have brackets : Fenced.EndsFence quote (List.replicate reader.depth ')') := by
      cases reader.depth with
      | zero => exact ⟨rfl, by simp⟩
      | succ depth => exact ⟨rfl, by simpa [List.replicate_succ] using Ne.symm closing⟩
    have blank : ' ' ≠ quote := by
      intro same
      subst same
      revert visible
      decide
    obtain ⟨f, found, left⟩ := Fenced.exists_read?_of_none brackets blank unread
    refine ⟨some (String.ofList f.text), ?_⟩
    simp only [completion, held, List.cons_append] at found ⊢
    rw [sequence_string isQuote found, left, sequence_closeBlocks]
    rfl

/-- The completion of an incomplete text compiles, if the ids that it takes fit. -/
theorem compile_completion {reader : Reader} {store : Store} {text : List Char}
    (held : reader.held = [] ∨ .unterminated reader.held ∈ sequence text)
    (room : store.symbols.size + reader.depth < idLimit) (final : Bool)
    : ∃ chunk, (reader.compile store reader.completion final).result = .ok chunk := by
  obtain ⟨string, tokens⟩ := sequence_completion held
  have first : ∃ draft,
      Draft.tokens ⟨store, reader.outer, reader.chunk⟩ (string.toList.map .string) = (draft, none)
      ∧ draft.outer = reader.outer
      ∧ draft.store.symbols.size ≤ store.symbols.size + 1 := by
    cases string with
    | none => exact ⟨_, rfl, rfl, Nat.le_succ _⟩
    | some string =>
        have fits : store.symbols.size < idLimit := by omega
        have ended := @Draft.literal_of_lt ⟨store, reader.outer, reader.chunk⟩ fits
          fun _ => .str string
        refine ⟨Draft.withLiteral ⟨store, reader.outer, reader.chunk⟩ (.str string), ?_, rfl, ?_⟩
        · simp only [Option.toList_some, List.map_cons, List.map_nil, Draft.tokens, Draft.token,
            ended]
        · rw [Draft.symbols_size_withLiteral]
  obtain ⟨draft, ended, sameOuter, size⟩ := first
  have left : draft.store.symbols.size + draft.outer.length ≤ idLimit := by
    rw [sameOuter]
    simp only [depth] at room
    omega
  obtain ⟨last, closed, outside⟩ := Draft.tokens_closeBlocks left
  rw [sameOuter] at closed
  refine ⟨last.chunk, ?_⟩
  rw [compile_eq, tokens, Draft.tokens_append_of_none ended, depth, closed]
  simp [conclude, outside]

/-- Before the end of all text only a stray bracket is a mistake. -/
theorem strayClose_of_malformed {draft : Draft} {stoppage : Option Stoppage} {text : List Char}
    {what : Malformed}
    (malformed : (conclude false text (draft, stoppage)).result = .error (.malformed what))
    : stoppage = some .strayClose ∧ what = .strayClose := by
  cases stoppage with
  | none =>
      simp only [conclude, unfinished] at malformed
      split at malformed <;> cases malformed
  | some stoppage =>
      cases stoppage with
      | unterminated held | numeral fault | code fault => cases malformed
      | strayClose =>
          cases malformed
          exact ⟨rfl, rfl⟩

/-- The verdict on a piece of text is exact, for every reader. If the piece leaves something open,
some further text makes code of all that was read; only ids that do not fit could prevent that, and
it takes no more than one for each open block and one for an open string. If the piece is malformed,
so is every text that starts with it, at the end of all text or not, and by the same mistake.
Witness: an open string ends with a blank and its fence, and then each block with a bracket; and
whatever follows a stray bracket leaves it and the tokens before it as they are.
-/
theorem verdict_exact (reader : Reader) (store : Store) (piece : List Char)
    : let first := reader.compile store piece false
      (∀ what,
        first.result = .error (.incomplete what)
        → first.store.symbols.size + first.reader.depth < idLimit
        → ∃ rest chunk, (first.reader.compile first.store rest false).result = .ok chunk)
      ∧ ∀ what,
          first.result = .error (.malformed what)
          → ∀ rest final,
              (reader.compile store (piece ++ rest) final).result = .error (.malformed what) := by
  intro first
  refine ⟨?_, ?_⟩
  · intro what incomplete room
    exact ⟨_, compile_completion (held_of_incomplete incomplete) room false⟩
  · intro what malformed rest final
    have malformed : (conclude false (reader.held ++ piece)
        (Draft.tokens ⟨store, reader.outer, reader.chunk⟩
          (sequence (reader.held ++ piece)))).result = .error (.malformed what) := by
      rw [← compile_eq]
      exact malformed
    cases read : Draft.tokens ⟨store, reader.outer, reader.chunk⟩
        (sequence (reader.held ++ piece)) with
    | mk draft stoppage =>
        rw [read] at malformed
        obtain ⟨rfl, rfl⟩ := strayClose_of_malformed malformed
        obtain ⟨front, back, before, split, reached, here⟩ := Draft.closeBlock_of_strayClose read
        obtain ⟨later, longer⟩ := sequence_append_of_closeBlock split rest
        rw [compile_eq, ← List.append_assoc, longer, Draft.tokens_append_of_none reached,
          Draft.tokens, here]
        rfl

/-- A block with a string between double fences that ends in a longer run of quotes can be
completed; a bracket too many stays one, whatever follows the quote behind it.
-/
theorem verdict_open_fence_and_stray_bracket
    : ((fresh.compile .empty "( \x27\x27a\x27\x27\x27".toList false).result
          = .error (.incomplete (.string '\x27' 2))
        ∧ ∃ rest chunk,
            ((fresh.compile .empty "( \x27\x27a\x27\x27\x27".toList false).reader.compile
                (fresh.compile .empty "( \x27\x27a\x27\x27\x27".toList false).store rest
                false).result
              = .ok chunk)
      ∧ ∀ rest final,
          (fresh.compile .empty ("a ) \x27".toList ++ rest) final).result
            = .error (.malformed .strayClose) := by
  have incomplete : (fresh.compile .empty "( \x27\x27a\x27\x27\x27".toList false).result
      = .error (.incomplete (.string '\x27' 2)) := by
    cbv
  have slots : (fresh.compile .empty "( \x27\x27a\x27\x27\x27".toList false).store.symbols.size
      + (fresh.compile .empty "( \x27\x27a\x27\x27\x27".toList false).reader.depth = 1 := by
    cbv
  have stray : (fresh.compile .empty "a ) \x27".toList false).result
      = .error (.malformed .strayClose) := by
    cbv
  refine ⟨⟨incomplete, ?_⟩, ?_⟩
  · exact (verdict_exact fresh .empty _).1 _ incomplete (by rw [slots]; decide)
  · exact (verdict_exact fresh .empty _).2 _ stray

end Reader

end StackText
