import Mathlib
import StackText.Proofs.Reader.Conclusion

/-! Text may be cut at any line end. Compiling it in two pieces comes to the same as compiling it
whole: the same code, the same store, the same reader and the same mistakes.
-/

namespace StackText.Reader

/-- How far compiling a line gets: it stops at a token of the line, whatever follows, or it
leaves a draft that goes on with what follows the line. The last conjunct of each case says what
compiling the line alone comes to.
-/
theorem compile_line (reader : Reader) (store : Store) {line : List Char}
    (ends : line.getLast? = some '\n')
    : (∃ draft stoppage,
        (∀ rest, stoppage ≠ .unterminated rest)
        ∧ (∀ rest final,
            reader.compile store (line ++ rest) final
              = conclude final (reader.held ++ line ++ rest) (draft, some stoppage))
        ∧ reader.compile store line false
            = conclude false (reader.held ++ line) (draft, some stoppage))
      ∨ ∃ draft held,
          (∀ rest final,
            reader.compile store (line ++ rest) final
              = conclude final (reader.held ++ line ++ rest)
                  (draft.tokens (Token.sequence (held ++ rest))))
          ∧ reader.compile store line false
              = (if held = [] then conclude false (reader.held ++ line) (draft, none)
                else unfinished false draft (unfinishedString held) held) := by
  have textEnds : (reader.held ++ line).getLast? = some '\n' := by
    rw [List.getLast?_append, ends, Option.some_or]
  obtain ⟨tokens, held, settles⟩ := Token.exists_settles textEnds
  have alone := settles.sequence_eq
  cases read : Draft.tokens ⟨store, reader.outer, reader.chunk⟩ tokens with
  | mk draft stoppage =>
      cases stoppage with
      | some stoppage =>
          refine .inl ⟨draft, stoppage, ?_, ?_, ?_⟩
          · rintro rest rfl
            exact Draft.tokens_ne_unterminated settles.terminated read
          · intro rest final
            rw [compile_eq, ← List.append_assoc, settles.sequence_append,
              Draft.tokens_append_of_some read]
          · rw [compile_eq, alone, Draft.tokens_append_of_some read]
      | none =>
          refine .inr ⟨draft, held, ?_, ?_⟩
          · intro rest final
            rw [compile_eq, ← List.append_assoc, settles.sequence_append,
              Draft.tokens_append_of_none read]
          · rw [compile_eq, alone, Draft.tokens_append_of_none read]
            split <;> rfl

/-- A line that leaves something open hands its draft on: what follows is compiled as it would
have been behind the line. A fault of a numeral or an id alone keeps another text.
-/
theorem compile_append_of_incomplete {reader : Reader} {store : Store} {line : List Char}
    (ends : line.getLast? = some '\n') {what : Unfinished}
    (incomplete : (reader.compile store line false).result = .error (.incomplete what))
    (rest : List Char) (final : Bool)
    : let first := reader.compile store line false
      let second := first.reader.compile first.store rest final
      let whole := reader.compile store (line ++ rest) final
      whole.result = second.result
      ∧ whole.store = second.store
      ∧ (second.OnlyTextFaults → whole = second) := by
  rcases compile_line reader store ends with
    ⟨draft, stoppage, terminated, _, alone⟩ | ⟨draft, held, onward, alone⟩
  · rw [alone] at incomplete
    cases stoppage with
    | strayClose | numeral fault | code fault => cases incomplete
    | unterminated left => exact absurd rfl (terminated left)
  · have kept : reader.compile store line false
        = ⟨.error (.incomplete what), ⟨held, draft.outer, draft.chunk⟩, draft.store⟩ := by
      rw [alone] at incomplete ⊢
      split at incomplete
      · next empty =>
          subst empty
          simp only [conclude, unfinished] at incomplete ⊢
          split at incomplete
          · cases incomplete
          · next inside => cases incomplete; simp [inside]
      · next nonempty =>
          rw [if_neg nonempty]
          cases incomplete
          rfl
    simp only [kept, onward, compile_eq _ draft.store]
    obtain ⟨result, store, same⟩ := conclude_congr final (held ++ rest)
      (reader.held ++ line ++ rest) (draft.tokens (Token.sequence (held ++ rest)))
    exact ⟨result.symm, store.symm, fun only => (same only).symm⟩

/-- Behind a line that compiles to code, the code of what follows is compiled behind it. -/
theorem compile_append_of_ok {reader : Reader} {store : Store} {line : List Char}
    (ends : line.getLast? = some '\n') {front : Chunk}
    (complete : (reader.compile store line false).result = .ok front)
    (rest : List Char) (final : Bool)
    : let first := reader.compile store line false
      let second := first.reader.compile first.store rest final
      let whole := reader.compile store (line ++ rest) final
      first.reader = fresh
      ∧ whole.result = second.result.map (front ++ ·)
      ∧ whole.store = second.store := by
  rcases compile_line reader store ends with
    ⟨draft, stoppage, _, _, alone⟩ | ⟨draft, held, onward, alone⟩
  · rw [alone] at complete
    cases stoppage with
    | strayClose | numeral fault | code fault | unterminated left => cases complete
  · obtain ⟨store', outer, chunk⟩ := draft
    have code : held = [] ∧ outer = []
        ∧ reader.compile store line false = ⟨.ok chunk, fresh, store'⟩ ∧ front = chunk := by
      rw [alone] at complete ⊢
      split at complete
      · next empty =>
          cases outer with
          | nil => cases complete; exact ⟨empty, rfl, by simp [empty, conclude], rfl⟩
          | cons c outer => cases complete
      · cases complete
    obtain ⟨rfl, rfl, code, rfl⟩ := code
    have under : (⟨store', [], front⟩ : Draft) = Draft.behind front ⟨store', [], {}⟩ := by
      simp [Draft.behind]
    have second : fresh.compile store' rest final
        = conclude final rest (Draft.tokens ⟨store', [], {}⟩ (Token.sequence rest)) :=
      compile_eq fresh store' rest final
    have behind := @Draft.Commutes.tokens _ _ (Draft.commutes_behind store' front) ⟨store', [], {}⟩
      (.refl _) (Token.sequence rest)
    simp only [code, onward, List.nil_append, second, under, behind, true_and]
    obtain ⟨result, _⟩ := conclude_congr final (reader.held ++ line ++ rest) rest
      (Draft.tokens ⟨store', [], {}⟩ (Token.sequence rest))
    have joined := result_conclude_behind final (reader.held ++ line ++ rest) front
      (Draft.tokens ⟨store', [], {}⟩ (Token.sequence rest)).1
      (Draft.tokens ⟨store', [], {}⟩ (Token.sequence rest)).2
    refine ⟨joined.trans (congrArg (Except.map (front ++ ·)) result), ?_⟩
    rw [store_conclude, Draft.store_behind, store_conclude]

/-- A mistake in a line stays the same mistake whatever follows, and so does any other fault that
is not an unfinished construct.
-/
theorem compile_append_of_error {reader : Reader} {store : Store} {line : List Char}
    (ends : line.getLast? = some '\n') {fault : ReadFault}
    (failed : (reader.compile store line false).result = .error fault)
    (complete : ∀ what, fault ≠ .incomplete what) (rest : List Char) (final : Bool)
    : (reader.compile store (line ++ rest) final).result = .error fault
      ∧ (∀ what,
          fault = .malformed what
          → reader.compile store (line ++ rest) final = reader.compile store line false) := by
  rcases compile_line reader store ends with
    ⟨draft, stoppage, terminated, onward, alone⟩ | ⟨draft, held, onward, alone⟩
  · rw [alone] at failed ⊢
    rw [onward]
    cases stoppage with
    | strayClose => cases failed; exact ⟨rfl, fun _ _ => rfl⟩
    | unterminated left => exact absurd rfl (terminated left)
    | numeral _ | code _ => cases failed; exact ⟨rfl, by rintro _ ⟨⟩⟩
  · exfalso
    rw [alone] at failed
    split at failed
    · simp only [conclude, unfinished] at failed
      split at failed
      · cases failed
      · cases failed; exact complete _ rfl
    · cases failed; exact complete _ rfl

/-- Text may be cut at any line end. If the line leaves a block or a string open, compiling what
follows comes to the same as compiling the whole: the same code or the same fault, the same store
and the same reader. If the line compiles to code, the whole compiles to that code followed by the
code of the rest, or fails with the mistake of the rest. A mistake in the line is the mistake of
the whole, and clears the reader. Witness: the line feed settles every token of the line, so both
ways compile the same tokens; finished code in front changes nothing in what is compiled behind.
-/
theorem compile_cut_at_line (reader : Reader) (store : Store) {line : List Char}
    (ends : line.getLast? = some '\n') (rest : List Char) (final : Bool)
    : let first := reader.compile store line false
      let second := first.reader.compile first.store rest final
      let whole := reader.compile store (line ++ rest) final
      (∀ what,
        first.result = .error (.incomplete what) → second.OnlyTextFaults → whole = second)
      ∧ (∀ front,
          first.result = .ok front
          → (∀ back,
              second.result = .ok back
              → whole = { second with result := .ok (front ++ back) })
            ∧ ∀ what, second.result = .error (.malformed what) → whole = second)
      ∧ ∀ what,
          first.result = .error (.malformed what) → whole = first ∧ first.reader = fresh := by
  intro first second whole
  refine ⟨?_, ?_, ?_⟩
  · intro what incomplete only
    exact (compile_append_of_incomplete ends incomplete rest final).2.2 only
  · intro front complete
    obtain ⟨_, result, sameStore⟩ := compile_append_of_ok ends complete rest final
    refine ⟨?_, ?_⟩
    · intro back compiled
      have joined : whole.result = .ok (front ++ back) := by rw [result, compiled]; rfl
      have cleared := reader_compile (.inl ⟨_, joined⟩)
      exact Compiled.ext joined (cleared.trans (reader_compile (.inl ⟨_, compiled⟩)).symm)
        sameStore
    · intro what malformed
      have mistake : whole.result = .error (.malformed what) := by rw [result, malformed]; rfl
      have cleared := reader_compile (.inr ⟨_, mistake⟩)
      exact Compiled.ext (mistake.trans malformed.symm)
        (cleared.trans (reader_compile (.inr ⟨_, malformed⟩)).symm) sameStore
  · intro what malformed
    exact ⟨(compile_append_of_error ends malformed (by simp) rest final).2 what rfl,
      reader_compile (.inr ⟨_, malformed⟩)⟩

/-- A cut inside a string inside a block: the rest gives the code of the whole text. -/
theorem compile_cut_in_open_string
    : let first := fresh.compile .empty "( \x27a\n".toList false
      let second := first.reader.compile first.store "b\x27 $=x ) 7".toList true
      first.result = .error (.incomplete (.string '\x27' 1))
      ∧ second.result = .ok ⟨#[1, 0, 0, 0, 2, 1, 0, 0, 0, 3]⟩
      ∧ fresh.compile .empty ("( \x27a\n".toList ++ "b\x27 $=x ) 7".toList) true = second := by
  have incomplete : (fresh.compile .empty "( \x27a\n".toList false).result
      = .error (.incomplete (.string '\x27' 1)) := by
    cbv
  have compiled : ((fresh.compile .empty "( \x27a\n".toList false).reader.compile
      (fresh.compile .empty "( \x27a\n".toList false).store "b\x27 $=x ) 7".toList true).result
      = .ok ⟨#[1, 0, 0, 0, 2, 1, 0, 0, 0, 3]⟩ := by
    cbv
  refine ⟨incomplete, compiled, ?_⟩
  refine (compile_cut_at_line fresh .empty (by decide) _ true).1 _ incomplete ?_
  intro fault failed
  cases compiled.symm.trans failed

end StackText.Reader
