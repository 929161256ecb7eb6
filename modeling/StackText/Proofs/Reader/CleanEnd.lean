import Mathlib
import StackText.Proofs.Number.UnreadableWords
import StackText.Proofs.Reader.Compilation
import StackText.Proofs.Reader.FirstToken

/-! The end of all text leaves a reader clean: there is code, or a mistake is reported, and nothing
is kept. The one exception is a word that has the shape of a number and cannot be read as one.
-/

namespace StackText

/-- (compiled.Clean) holds if there is code or a mistake, and the reader keeps nothing. -/
structure Compiled.Clean (compiled : Compiled) : Prop where
  settled
    : (∃ chunk, compiled.result = .ok chunk) ∨ ∃ what, compiled.result = .error (.malformed what)
  cleared : compiled.reader = Reader.fresh

namespace Token

/-- (Stumbles depth tokens) holds if, inside the given number of blocks, an unreadable word comes
before any closing bracket that has no opening one.
-/
def Stumbles (depth : Nat) (tokens : List Token) : Prop :=
  ∃ front word back,
    tokens = front ++ .word word :: back
    ∧ Numeral.Unreadable word
    ∧ ∀ part, part <+: front → part.count .closeBlock ≤ depth + part.count .openBlock

theorem Stumbles.append {depth : Nat} {tokens : List Token} (stumbles : Stumbles depth tokens)
    (more : List Token)
    : Stumbles depth (tokens ++ more) := by
  obtain ⟨front, word, back, rfl, unreadable, covered⟩ := stumbles
  exact ⟨front, word, back ++ more, by simp, unreadable, covered⟩

/-- Balanced tokens in front neither stop compiling nor leave a block open or closed. -/
theorem Stumbles.behind {depth : Nat} {tokens : List Token} (stumbles : Stumbles depth tokens)
    {first : List Token} (balanced : Balanced first)
    : Stumbles depth (first ++ tokens) := by
  obtain ⟨front, word, back, rfl, unreadable, covered⟩ := stumbles
  refine ⟨first ++ front, word, back, by simp, unreadable, ?_⟩
  intro part isPart
  rcases prefix_append_cases isPart with within | ⟨beyond, isFront, rfl⟩
  · have bound := balanced.covered part within
    omega
  · have bound := covered beyond isFront
    have total := balanced.closed
    simp only [List.count_append]
    omega

theorem Stumbles.inside {depth : Nat} {tokens : List Token} (stumbles : Stumbles depth tokens)
    : Stumbles depth (.openBlock :: tokens) := by
  obtain ⟨front, word, back, rfl, unreadable, covered⟩ := stumbles
  refine ⟨.openBlock :: front, word, back, rfl, unreadable, ?_⟩
  intro part isPart
  cases part with
  | nil => simp
  | cons token part =>
      obtain ⟨rfl, shorter⟩ := List.cons_prefix_cons.mp isPart
      have bound := covered part shorter
      rw [List.count_cons_self, List.count_cons_of_ne (by decide)]
      omega

/-- A string that a text leaves open is its last token, by induction on the tokens before it. -/
theorem eq_nil_of_unterminated {text held : List Char} {front back : List Token}
    (split : sequence text = front ++ .unterminated held :: back)
    : back = [] := by
  induction front generalizing text with
  | nil =>
      obtain ⟨rest, next, behind⟩ := next?_of_sequence_cons split
      rw [(next?_unterminated next).2, sequence_nil] at behind
      exact behind.symm
  | cons token front ih =>
      obtain ⟨rest, _, behind⟩ := next?_of_sequence_cons split
      exact ih behind

end Token

namespace Draft

open Token

/-- Where tokens have compiled, no part of them closes more blocks than were open. -/
theorem covered_of_tokens {draft next : Draft} {tokens : List Token}
    (passed : draft.tokens tokens = (next, none)) {part : List Token} (isPart : part <+: tokens)
    : part.count .closeBlock ≤ draft.outer.length + part.count .openBlock := by
  obtain ⟨middle, reached⟩ := (compilesAll_of_tokens passed).front isPart
  have depth := reached.depth
  omega

/-- An id that does not fit stops compiling only over a store with more slots than ids. -/
theorem tokens_ne_code {draft next : Draft} {tokens : List Token}
    (formed : draft.store.WellFormed) (room : next.store.size ≤ idLimit) (fault : CodeFault)
    : draft.tokens tokens ≠ (next, some (.code fault)) := by
  intro read
  obtain ⟨front, token, back, before, _, passed, stopped⟩ := tokens_stoppage read
  have started := (compilesAll_of_tokens passed).wellFormed formed
  exact absurd room (Nat.not_le.mpr (size_of_token_code started stopped))

/-- An unreadable word that stops compiling is one that the tokens stumble at. -/
theorem stumbles_of_tokens {draft next : Draft} {tokens : List Token} {fault : Numeral.Fault}
    (read : draft.tokens tokens = (next, some (.numeral fault)))
    : Stumbles draft.outer.length tokens := by
  obtain ⟨front, token, back, before, split, passed, stopped⟩ := tokens_stoppage read
  rcases token_stoppage stopped with
    ⟨_, _, same⟩ | ⟨_, _, same⟩ | ⟨word, _, rfl, failed, _⟩ | ⟨_, same⟩
  · cases same
  · cases same
  · exact ⟨front, word, back, split, Term.ofWord_eq_error_iff.mp ⟨_, failed⟩,
      fun part isPart => covered_of_tokens passed isPart⟩
  · cases same

/-- Where the tokens of a text stumble, compiling them stops at an unreadable word, given room for
the ids: nothing else can stop it before.
-/
theorem tokens_of_stumbles {draft next : Draft} {text : List Char} {stoppage : Option Stoppage}
    (formed : draft.store.WellFormed)
    (read : draft.tokens (sequence text) = (next, stoppage)) (room : next.store.size ≤ idLimit)
    (stumbles : Stumbles draft.outer.length (sequence text))
    : ∃ fault, stoppage = some (.numeral fault) := by
  obtain ⟨front, word, back, split, unreadable, covered⟩ := stumbles
  rw [split] at read
  cases first : draft.tokens front with
  | mk middle early =>
      cases early with
      | none =>
          obtain ⟨fault, failed⟩ := Term.ofWord_eq_error_iff.mpr unreadable
          rw [tokens_append_of_none first, Draft.tokens, Draft.token, Draft.word, failed] at read
          cases read
          exact ⟨fault, rfl⟩
      | some early =>
          rw [tokens_append_of_some first] at read
          cases read
          obtain ⟨start, token, later, before, inside, passed, stopped⟩ := tokens_stoppage first
          rcases token_stoppage stopped with
            ⟨rfl, outside, rfl⟩ | ⟨held, rfl, rfl⟩ | ⟨_, fault, _, _, rfl⟩ | ⟨fault, rfl⟩
          · -- A stray bracket in front of the word would close more than is open.
            have depth := (compilesAll_of_tokens passed).depth
            have bound := covered (start ++ [.closeBlock]) ⟨later, by simp [inside]⟩
            rw [outside] at depth
            simp only [List.count_append, List.length_nil] at bound depth
            simp at bound
            omega
          · -- An open string would be the last token, and the word comes behind it.
            rw [inside, List.append_assoc, List.cons_append] at split
            exact absurd (eq_nil_of_unterminated split) (by simp)
          · exact ⟨fault, rfl⟩
          · exact absurd first (tokens_ne_code formed room fault)

end Draft

namespace Reader

open Token

/-- An unreadable word is the answer exactly if it stopped compiling. -/
theorem conclude_numeral_iff {draft : Draft} {stoppage : Option Stoppage} {text : List Char}
    {fault : Numeral.Fault}
    : (conclude true text (draft, stoppage)).result = .error (.numeral fault)
      ↔ stoppage = some (.numeral fault) := by
  cases stoppage with
  | none =>
      rw [conclude]
      split <;> simp [unfinished]
  | some stoppage => cases stoppage <;> simp [conclude, unfinished]

/-- At the end of all text there is code or a mistake, unless a word or an id is at fault. -/
theorem settled_conclude {draft : Draft} {stoppage : Option Stoppage} {text : List Char}
    (word : ∀ fault, stoppage ≠ some (.numeral fault))
    (id : ∀ fault, stoppage ≠ some (.code fault))
    : (∃ chunk, (conclude true text (draft, stoppage)).result = .ok chunk)
      ∨ ∃ what, (conclude true text (draft, stoppage)).result = .error (.malformed what) := by
  cases stoppage with
  | none =>
      rw [conclude]
      split
      · exact .inl ⟨_, rfl⟩
      · exact .inr ⟨_, rfl⟩
  | some stoppage =>
      cases stoppage with
      | strayClose | unterminated rest => exact .inr ⟨_, rfl⟩
      | numeral fault => exact absurd rfl (word fault)
      | code fault => exact absurd rfl (id fault)

section Final

variable {reader : Reader} {store : Store} {text : List Char}

/-- At the end of all text an unreadable word is the answer exactly if the tokens stumble. -/
theorem compile_numeral_iff (formed : store.WellFormed)
    (room : (reader.compile store text true).store.size ≤ idLimit)
    : (∃ fault, (reader.compile store text true).result = .error (.numeral fault))
      ↔ Stumbles reader.depth (sequence (reader.held ++ text)) := by
  rw [compile_eq] at room ⊢
  cases read : Draft.tokens ⟨store, reader.outer, reader.chunk⟩
      (sequence (reader.held ++ text)) with
  | mk draft stoppage =>
      rw [read, store_conclude] at room
      have start : Store.WellFormed (Draft.mk store reader.outer reader.chunk).store := formed
      simp only [conclude_numeral_iff]
      constructor
      · intro stopped
        obtain ⟨fault, rfl⟩ := stopped
        exact Draft.stumbles_of_tokens read
      · intro stumbles
        exact Draft.tokens_of_stumbles start read room stumbles

/-- An unreadable word leaves all text to be read again. -/
theorem held_of_numeral {fault : Numeral.Fault}
    (failed : (reader.compile store text true).result = .error (.numeral fault))
    : (reader.compile store text true).reader.held = reader.held ++ text := by
  rw [compile_eq] at failed ⊢
  generalize Draft.tokens _ _ = read at failed ⊢
  obtain ⟨draft, stoppage⟩ := read
  rw [conclude_numeral_iff] at failed
  rw [failed]
  rfl

/-- At the end of all text any answer but an unreadable word is clean, given room for the ids. -/
theorem clean_of_not_numeral (formed : store.WellFormed)
    (room : (reader.compile store text true).store.size ≤ idLimit)
    (readable : ∀ fault, (reader.compile store text true).result ≠ .error (.numeral fault))
    : (reader.compile store text true).Clean := by
  have settled : (∃ chunk, (reader.compile store text true).result = .ok chunk)
      ∨ ∃ what, (reader.compile store text true).result = .error (.malformed what) := by
    rw [compile_eq] at room readable ⊢
    cases read : Draft.tokens ⟨store, reader.outer, reader.chunk⟩
        (sequence (reader.held ++ text)) with
    | mk draft stoppage =>
        rw [read, store_conclude] at room
        rw [read] at readable
        have start : Store.WellFormed (Draft.mk store reader.outer reader.chunk).store := formed
        apply settled_conclude
        · intro fault same
          exact readable fault (conclude_numeral_iff.mpr same)
        · intro fault same
          exact Draft.tokens_ne_code start room fault (same ▸ read)
  exact ⟨settled, reader_compile settled⟩

end Final

/-- At the end of all text there is code or a mistake and the reader keeps nothing, exactly if no
unreadable word stops compiling. After such an end the next text is compiled as by a new reader over
the same store. An unreadable word instead leaves all text to be read again, behind the code it has
given. The reader may have kept anything before, and there is room for the ids. Witness: code and
mistakes clear the reader, and of the other two faults an id that does not fit needs more slots than
there are ids.
-/
theorem compile_clean_iff {reader : Reader} {store : Store} (formed : store.WellFormed)
    {text : List Char} (room : (reader.compile store text true).store.size ≤ idLimit)
    : let done := reader.compile store text true
      (done.Clean ↔ ¬Stumbles reader.depth (sequence (reader.held ++ text)))
      ∧ (done.Clean
        → ∀ next final,
            done.reader.compile done.store next final = fresh.compile done.store next final)
      ∧ (¬done.Clean
        → (∃ fault, done.result = .error (.numeral fault))
          ∧ done.reader.held = reader.held ++ text) := by
  intro done
  by_cases word : ∃ fault, done.result = .error (.numeral fault)
  · obtain ⟨fault, failed⟩ := word
    have unclean : ¬done.Clean := by
      intro clean
      rcases clean.settled with ⟨_, same⟩ | ⟨_, same⟩ <;> cases failed.symm.trans same
    have stumbles := (compile_numeral_iff formed room).mp ⟨fault, failed⟩
    exact ⟨iff_of_false unclean (not_not_intro stumbles), fun clean => absurd clean unclean,
      fun _ => ⟨⟨fault, failed⟩, held_of_numeral failed⟩⟩
  · have clean : done.Clean :=
      clean_of_not_numeral formed room (fun fault failed => word ⟨fault, failed⟩)
    refine ⟨?_, fun _ next final => by rw [clean.cleared], fun unclean => absurd clean unclean⟩
    exact iff_of_true clean (fun stumbles => word ((compile_numeral_iff formed room).mpr stumbles))

/-- An open block and a string behind it end cleanly as a mistake. -/
theorem compile_clean_open_string
    : (fresh.compile .empty "( a \x27b".toList true).Clean
      ∧ (fresh.compile .empty "( a \x27b".toList true).result
          = .error (.malformed (.unfinished (.string '\x27' 1))) := by
  have slots : (fresh.compile .empty "( a \x27b".toList true).store.size = 1 := by cbv
  have mistake : (fresh.compile .empty "( a \x27b".toList true).result
      = .error (.malformed (.unfinished (.string '\x27' 1))) := by
    cbv
  have room : (fresh.compile .empty "( a \x27b".toList true).store.size ≤ idLimit := by
    rw [slots]
    decide
  obtain ⟨_, _, unclean⟩ := compile_clean_iff Store.wellFormed_empty room
  refine ⟨?_, mistake⟩
  apply Classical.byContradiction
  intro notClean
  obtain ⟨⟨fault, failed⟩, _⟩ := unclean notClean
  cases mistake.symm.trans failed

/-- The name of infinity with a dotless i is neither code nor a mistake at the end of all text, and
the reader keeps it, so the end is not clean.
-/
theorem compile_dotless_infinity_not_clean
    : ¬(fresh.compile .empty "\u0131nf".toList true).Clean
      ∧ (fresh.compile .empty "\u0131nf".toList true).reader.isPending = true := by
  have failed : (fresh.compile .empty "\u0131nf".toList true).result
      = .error (.numeral (.unreadable "\u0131nf")) := by
    cbv
  refine ⟨?_, by cbv⟩
  intro clean
  rcases clean.settled with ⟨_, same⟩ | ⟨_, same⟩ <;> cases failed.symm.trans same

end Reader

end StackText
