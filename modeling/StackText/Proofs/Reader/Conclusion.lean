import StackText.Proofs.Code.Encoding
import StackText.Proofs.Reader.DraftSteps
import StackText.Proofs.Reader.FirstToken

/-! What a reader makes of a piece of text: it compiles the tokens of the text and concludes. Code
that is finished may stand in front of what is compiled without a change to anything but the result.
-/

namespace StackText

namespace Draft

/-- The loop over a text does what the tokens of the text do one after another, by induction on the
turns of the loop.
-/
theorem parse_eq_tokens (draft : Draft) (text : List Char)
    : draft.parse text = draft.tokens (Token.sequence text) := by
  fun_induction parse draft text with
  | case1 draft => rw [Token.sequence_nil, tokens]
  | case2 draft c rest blank ih => rw [ih, Token.sequence_blank blank]
  | case3 draft rest visible ih => rw [ih, Token.sequence_comment]
  | case4 draft c rest visible code quote unread =>
      rw [Token.sequence_unterminated quote unread, tokens, token]
  | case5 draft c rest visible code quote string found next passed ih =>
      rw [ih, Token.sequence_string quote found, tokens_cons_of_none (.string _) passed]
  | case6 draft c rest visible code quote string found stopped =>
      rw [Token.sequence_string quote found, tokens_cons_of_stopped (.string _) stopped, token]
  | case7 draft rest visible code quote ih =>
      rw [ih, Token.sequence_openBlock, tokens_cons_of_none .openBlock rfl]
  | case8 draft rest next passed visible code quote opening ih =>
      rw [ih, Token.sequence_closeBlock, tokens_cons_of_none .closeBlock passed]
  | case9 draft rest visible code quote opening stopped =>
      rw [Token.sequence_closeBlock, tokens_cons_of_stopped .closeBlock stopped, token]
  | case10 draft c rest visible code quote opening closing word next passed ih =>
      have plain := isSpecial_of_other visible code quote opening closing
      rw [ih, Token.sequence_leadingWord plain, tokens_cons_of_none (.word word) passed]
  | case11 draft c rest visible code quote opening closing word stopped =>
      have plain := isSpecial_of_other visible code quote opening closing
      rw [Token.sequence_leadingWord plain, tokens_cons_of_stopped (.word word) stopped, token]

-----------------------------------------------------------------------------------------
-- Compiling behind finished code
-----------------------------------------------------------------------------------------

/-- Puts finished code in front of the outermost of some blocks. -/
def beneath (front : Chunk) : List Chunk → List Chunk
  | [] => []
  | [chunk] => [front ++ chunk]
  | chunk :: outer => chunk :: beneath front outer

/-- The draft that compiles behind finished code of the outermost block. -/
def behind (front : Chunk) : Draft → Draft
  | ⟨store, [], chunk⟩ => ⟨store, [], front ++ chunk⟩
  | ⟨store, outer, chunk⟩ => ⟨store, beneath front outer, chunk⟩

@[simp] theorem length_beneath (front : Chunk) (outer : List Chunk)
    : (beneath front outer).length = outer.length := by
  fun_induction beneath front outer <;> simp_all

@[simp] theorem store_behind (front : Chunk) (draft : Draft)
    : (draft.behind front).store = draft.store := by
  fun_cases behind front draft <;> rfl

@[simp] theorem length_outer_behind (front : Chunk) (draft : Draft)
    : (draft.behind front).outer.length = draft.outer.length := by
  fun_cases behind front draft <;> simp

theorem emit_behind (front : Chunk) (draft : Draft) (i : Instruction)
    : (draft.behind front).emit i = ((draft.emit i).1.behind front, (draft.emit i).2) := by
  obtain ⟨store, outer, chunk⟩ := draft
  rw [emit_eq, emit_eq]
  cases outer with
  | nil => split <;> simp [behind, Chunk.append_push, Chunk.append_pushByte]
  | cons c outer => split <;> simp [behind]

theorem literal_behind (front : Chunk) (draft : Draft) (value : Nat → Value)
    : (draft.behind front).literal value
      = ((draft.literal value).1.behind front, (draft.literal value).2) := by
  obtain ⟨store, outer, chunk⟩ := draft
  cases outer with
  | nil => exact emit_behind front ⟨_, [], chunk⟩ _
  | cons c outer => exact emit_behind front ⟨_, c :: outer, chunk⟩ _

theorem named_behind (front : Chunk) (draft : Draft) (op : Opcode) (name : String)
    : (draft.behind front).named op name
      = ((draft.named op name).1.behind front, (draft.named op name).2) := by
  obtain ⟨store, outer, chunk⟩ := draft
  cases outer with
  | nil => exact emit_behind front ⟨_, [], chunk⟩ _
  | cons c outer => exact emit_behind front ⟨_, c :: outer, chunk⟩ _

/-- Tokens compile alike behind finished code. -/
theorem commutes_behind (store : Store) (front : Chunk)
    : Commutes store (behind front) where
  literal draft value _ := literal_behind front draft value
  named draft op name _ := named_behind front draft op name
  openBlock draft := by
    obtain ⟨store, outer, chunk⟩ := draft
    cases outer <;> rfl
  closeBlock draft _ := by
    obtain ⟨store, outer, block⟩ := draft
    cases outer with
    | nil => rfl
    | cons chunk outer =>
        cases outer with
        | nil => exact literal_behind front ⟨store, [], chunk⟩ (blockValue block)
        | cons c outer => exact literal_behind front ⟨store, c :: outer, chunk⟩ (blockValue block)

end Draft

-----------------------------------------------------------------------------------------
-- The end of a piece
-----------------------------------------------------------------------------------------

/-- (compiled.OnlyTextFaults) holds unless something other than unfinished or malformed text, such
as a numeral or an id, was at fault.
-/
def Compiled.OnlyTextFaults (compiled : Compiled) : Prop :=
  ∀ fault,
    compiled.result = .error fault
    → (∃ what, fault = .incomplete what) ∨ ∃ what, fault = .malformed what

attribute [ext] Compiled

namespace Reader

/-- What a reader makes of an unfinished construct at the end of a piece. -/
def unfinished (final : Bool) (draft : Draft) (what : Unfinished) (held : List Char) : Compiled :=
  if final then ⟨.error (.malformed (.unfinished what)), fresh, draft.store⟩
  else ⟨.error (.incomplete what), ⟨held, draft.outer, draft.chunk⟩, draft.store⟩

/-- What a reader makes of a text once its tokens are compiled. -/
def conclude (final : Bool) (text : List Char) : Draft × Option Stoppage → Compiled
  | (draft, some .strayClose) => ⟨.error (.malformed .strayClose), fresh, draft.store⟩
  | (draft, some (.unterminated rest)) => unfinished final draft (unfinishedString rest) rest
  | (draft, some (.numeral fault)) =>
      ⟨.error (.numeral fault), ⟨text, draft.outer, draft.chunk⟩, draft.store⟩
  | (draft, some (.code fault)) =>
      ⟨.error (.code fault), ⟨text, draft.outer, draft.chunk⟩, draft.store⟩
  | (draft, none) =>
      if draft.outer.isEmpty then ⟨.ok draft.chunk, fresh, draft.store⟩
      else unfinished final draft (.blocks draft.outer.length) []

/-- Compiling a piece is compiling its tokens and concluding. -/
theorem compile_eq (reader : Reader) (store : Store) (piece : List Char) (final : Bool)
    : reader.compile store piece final
      = conclude final (reader.held ++ piece)
          (Draft.tokens ⟨store, reader.outer, reader.chunk⟩
            (Token.sequence (reader.held ++ piece))) := by
  simp only [compile, Draft.parse_eq_tokens]
  generalize Draft.tokens _ _ = read
  obtain ⟨draft, stoppage⟩ := read
  cases stoppage with
  | none => rfl
  | some stoppage => cases stoppage <;> rfl

/-- Concluding leaves the store as the tokens have left it. -/
@[simp] theorem store_conclude (final : Bool) (text : List Char) (draft : Draft)
    (stoppage : Option Stoppage)
    : (conclude final text (draft, stoppage)).store = draft.store := by
  cases stoppage with
  | none =>
      rw [conclude]
      split
      · rfl
      · cases final <;> rfl
  | some stoppage =>
      cases stoppage with
      | strayClose | numeral fault | code fault => rfl
      | unterminated rest => cases final <;> rfl

/-- The result and the store do not depend on the text that a fault would keep. -/
theorem conclude_congr (final : Bool) (text other : List Char) (read : Draft × Option Stoppage)
    : (conclude final text read).result = (conclude final other read).result
      ∧ (conclude final text read).store = (conclude final other read).store
      ∧ ((conclude final text read).OnlyTextFaults
          → conclude final text read = conclude final other read) := by
  obtain ⟨draft, stoppage⟩ := read
  cases stoppage with
  | none => exact ⟨rfl, rfl, fun _ => rfl⟩
  | some stoppage =>
      cases stoppage with
      | strayClose | unterminated rest => exact ⟨rfl, rfl, fun _ => rfl⟩
      | numeral fault | code fault =>
          refine ⟨rfl, rfl, fun only => ?_⟩
          rcases only _ rfl with ⟨_, same⟩ | ⟨_, same⟩ <;> cases same

/-- The end of all text matters only where something is unfinished. -/
theorem compile_final (reader : Reader) (store : Store) (piece : List Char)
    : reader.compile store piece true = reader.compile store piece false
      ∨ ∃ what,
          (reader.compile store piece false).result = .error (.incomplete what)
          ∧ (reader.compile store piece true).result = .error (.malformed (.unfinished what)) := by
  rw [compile_eq, compile_eq]
  generalize Draft.tokens _ _ = read
  obtain ⟨draft, stoppage⟩ := read
  cases stoppage with
  | none =>
      simp only [conclude]
      split
      · exact .inl rfl
      · exact .inr ⟨_, rfl, rfl⟩
  | some stoppage =>
      cases stoppage with
      | strayClose | numeral fault | code fault => exact .inl rfl
      | unterminated rest => exact .inr ⟨_, rfl, rfl⟩

/-- Finished code in front comes first in the result and changes nothing else in it. -/
theorem result_conclude_behind (final : Bool) (text : List Char) (front : Chunk) (draft : Draft)
    (stoppage : Option Stoppage)
    : (conclude final text (draft.behind front, stoppage)).result
      = (conclude final text (draft, stoppage)).result.map (front ++ ·) := by
  cases stoppage with
  | none =>
      obtain ⟨store, outer, chunk⟩ := draft
      cases outer with
      | nil => rfl
      | cons c outer =>
          have count := Draft.length_outer_behind front ⟨store, c :: outer, chunk⟩
          have inside : (Draft.behind front ⟨store, c :: outer, chunk⟩).outer.isEmpty = false := by
            rw [List.isEmpty_eq_false_iff]
            exact List.ne_nil_of_length_pos (by simp [count])
          simp only [conclude, inside, count, unfinished]
          cases final <;> rfl
  | some stoppage =>
      cases stoppage with
      | strayClose | numeral fault | code fault => rfl
      | unterminated rest => cases final <;> rfl

/-- Code or a mistake clears the reader. -/
theorem reader_compile {reader : Reader} {store : Store} {piece : List Char} {final : Bool}
    (settled
      : (∃ chunk, (reader.compile store piece final).result = .ok chunk)
        ∨ ∃ what, (reader.compile store piece final).result = .error (.malformed what))
    : (reader.compile store piece final).reader = fresh := by
  rw [compile_eq] at settled ⊢
  generalize Draft.tokens _ _ = read at settled ⊢
  obtain ⟨draft, stoppage⟩ := read
  cases stoppage with
  | none =>
      simp only [conclude, unfinished] at settled ⊢
      split at settled
      · next closed => rw [if_pos closed]
      · next inside =>
          rw [if_neg inside]
          cases final with
          | true => rfl
          | false => rcases settled with ⟨_, same⟩ | ⟨_, same⟩ <;> cases same
  | some stoppage =>
      cases stoppage with
      | strayClose => rfl
      | unterminated rest =>
          cases final with
          | true => rfl
          | false => rcases settled with ⟨_, same⟩ | ⟨_, same⟩ <;> cases same
      | numeral fault | code fault =>
          rcases settled with ⟨_, same⟩ | ⟨_, same⟩ <;> cases same

end Reader

end StackText
