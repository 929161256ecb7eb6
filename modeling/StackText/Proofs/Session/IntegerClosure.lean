import Mathlib
import StackText.Proofs.Machine.Moments
import StackText.Proofs.Number.IntegerText
import StackText.Proofs.Number.TwosComplement
import StackText.Proofs.Reader.AppendedSlots
import StackText.Proofs.Reader.FirstToken
import StackText.Proofs.Session.Reachable

/-! The integers of a session are those of 64 bits. Text and input bring no others in, and no
builtin makes one.
-/

namespace StackText

-----------------------------------------------------------------------------------------
-- Values and states
-----------------------------------------------------------------------------------------

/-- All results of builtins on integers of the language are such integers. -/
theorem Value.inherited_inRange
    : Value.Inherited Value.InRange where
  int range := inRange_int.mpr range
  remainder range n := inRange_int.mpr (Integer.inRange_remainder (inRange_int.mp range) n)
  float _ _ := inRange_of_integers_eq_nil rfl
  str _ := inRange_of_integers_eq_nil rfl
  pair := inRange_pair

theorem Value.IsLiteral.inRange {v : Value} {id : Nat} (literal : v.IsLiteral id)
    : v.InRange := by
  cases v with
  | int n => exact inRange_int.mpr literal
  | pair serial left right => exact literal.elim
  | _ => exact inRange_of_integers_eq_nil rfl

/-- All integers in the store and on the stack, and inside the pairs there. -/
def State.integers (s : State) : List Int :=
  (s.store.values.toList ++ s.stack).flatMap Value.integers

theorem State.Every.inRange {s : State} (every : s.Every Value.InRange)
    : ∀ n ∈ s.integers, Integer.InRange n := by
  intro n member
  obtain ⟨v, held, inside⟩ := List.mem_flatMap.mp member
  rcases List.mem_append.mp held with stored | pushed
  · obtain ⟨id, bound, found⟩ := List.mem_iff_getElem.mp stored
    have slot : s.store.get? id = some v := by
      rw [Store.get?, ← Array.getElem?_toList, List.getElem?_eq_getElem bound, found]
    exact every.store id v slot n inside
  · exact every.stack v pushed n inside

-----------------------------------------------------------------------------------------
-- Sessions
-----------------------------------------------------------------------------------------

/-- The text of an integer becomes a slot that holds it. -/
theorem Reader.store_compile_decimalInt {n : Int} (range : Integer.InRange n) (store : Store)
    (final : Bool)
    : (Reader.fresh.compile store (Text.decimalInt n).toList final).store
      = (store.alloc (.int n)).2 := by
  have ends : ∀ c ∈ ([] : List Char).head?, isSpecial c = true := by simp
  have word := Token.sequence_word (Text.decimalInt_ne_nil n) (Text.isSpecial_decimalInt n) ends
  rw [List.append_nil, Token.sequence_nil] at word
  have literal : Draft.token ⟨store, [], {}⟩ (.word (Text.decimalInt n).toList)
      = Draft.literal ⟨store, [], {}⟩ (fun _ => .int n) := by
    rw [Draft.token, Draft.word, Term.ofWord_decimalInt range]
    rfl
  have slot : (Draft.literal ⟨store, [], {}⟩ (fun _ => .int n)).1.store
      = (store.alloc (.int n)).2 := by
    rw [Draft.literal_eq, Draft.store_emit]
  rw [compile_eq, store_conclude]
  show (Draft.tokens ⟨store, [], {}⟩ (Token.sequence (Text.decimalInt n).toList)).1.store = _
  rw [word, Draft.tokens, literal]
  split
  · next read => rw [read] at slot; exact slot
  · exact slot

namespace Session

/-- (WithinRange given s) holds of a closed session in which all integers are in the range. -/
structure WithinRange (given : List Chunk) (s : Session) : Prop where
  closed : s.Closed given
  every : s.machine.state.Every Value.InRange

theorem withinRange_new (settings : Settings) (console : Console)
    : WithinRange [] (Session.new settings console) := by
  have builtin (b : Builtin) : (Value.builtin b).InRange := Value.inRange_of_integers_eq_nil rfl
  refine ⟨closed_new settings console, Store.every_withBuiltins Value.inRange_nil builtin, ?_⟩
  simp [Session.new, Machine.state]

/-- Each operation leaves all integers in the range. -/
theorem kept_withinRange
    : Kept (fun _ _ => False) WithinRange where
  compile := by
    intro given s within text final
    have appends := Reader.appends_compile within.closed.state.store.formed s.reader text final
    refine ⟨within.closed.compile text final, ?_⟩
    rw [machine_recover]
    exact ⟨appends.every within.every.store Value.inRange_nil fun _ _ literal => literal.inRange,
      within.every.stack⟩
  run := by
    intro given s fuel chunk result next within member ran
    refine ⟨kept_closed.run within.closed member ran, ?_⟩
    rcases machine_of_run ran with same | ⟨ending, ended, same⟩
    · rw [same]
      exact within.every
    · rw [same]
      exact (State.kept_every Value.inherited_inRange).run
        (m := { s.machine with frames := [chunk.toList] }) within.every ended
  define _ never := never.elim
  bindText := by
    intro given s within name text
    exact ⟨kept_closed.bindText within.closed name text,
      within.every.store.define Value.inRange_nil name (Value.inherited_inRange.str text),
      within.every.stack⟩
  resetReader within := ⟨within.closed.resetReader, within.every⟩
  withConsole within console :=
    ⟨kept_closed.withConsole within.closed console, within.every.store, within.every.stack⟩
  note within text := ⟨within.closed.note text, within.every⟩
  fewer within := ⟨kept_closed.fewer within.closed, within.every⟩

/-- The text of an integer of the language brings it into any session. -/
theorem exists_continues_of_inRange (s : Session) (given : List Chunk) {n : Int}
    (range : Integer.InRange n)
    : ∃ later t, Continues given s later t ∧ n ∈ t.machine.state.integers := by
  refine ⟨_, _, .compile (.resetReader .refl) (Text.decimalInt n).toList true, ?_⟩
  have slot := Reader.store_compile_decimalInt range s.machine.store true
  have held : Value.int n ∈ (s.machine.store.alloc (.int n)).2.values.toList := by
    simp [Store.alloc_eq]
  rw [← slot] at held
  rw [machine_recover]
  exact List.mem_flatMap.mpr ⟨.int n, List.mem_append_left _ held, List.mem_singleton_self n⟩

/-- The language is closed over the 64-bit integers. In every session that text leads to from a new
one, with any input and whatever came of earlier runs, all integers in the store, on the stack and
anywhere inside the pairs there are at least -2^63 and at most 2^63 - 1; and so they are at every
moment of a run of any code. Each of these numbers can be brought in. Witness: what is read is in
the range or no integer, arithmetic wraps, a remainder is no further from zero than the dividend,
and nothing else makes integers.
-/
theorem integers_are_64_bit {settings : Settings} {console : Console} {compiled : List Chunk}
    {s : Session} (history : Continues [] (Session.new settings console) compiled s)
    : (∀ n ∈ s.machine.state.integers, -2 ^ 63 ≤ n ∧ n ≤ 2 ^ 63 - 1)
      ∧ (∀ chunk steps m,
          Machine.after steps { s.machine with frames := [Chunk.toList chunk] } = some m
          → ∀ n ∈ m.state.integers, -2 ^ 63 ≤ n ∧ n ≤ 2 ^ 63 - 1)
      ∧ ∀ n,
          -2 ^ 63 ≤ n ∧ n ≤ 2 ^ 63 - 1
          → ∃ later t, Continues compiled s later t ∧ n ∈ t.machine.state.integers := by
  have within := kept_withinRange.reaches (withinRange_new settings console) history
  refine ⟨?_, ?_, ?_⟩
  · intro n member
    exact Integer.inRange_iff.mp (within.every.inRange n member)
  · intro chunk steps m reached n member
    have every := (State.kept_every Value.inherited_inRange).after
      (m := { s.machine with frames := [chunk.toList] }) within.every reached
    exact Integer.inRange_iff.mp (every.inRange n member)
  · intro n range
    exact exists_continues_of_inRange s compiled (Integer.inRange_iff.mpr range)

/-- The least integer divided by minus one and twice the greatest, in a pair, after a run that
fails.
-/
theorem integers_at_both_ends_64_bit
    : ∃ next,
        (Session.new [] {}).eval 40
            "-9223372036854775808 -1 / 9223372036854775807 2 * cons 5 0 %".toList true
          = some (.error (.stop (.fault .remainderByZero)), next)
        ∧ next.machine.stack.flatMap Value.integers = [0, 5, -2 ^ 63, -2]
        ∧ ∀ n ∈ next.machine.state.integers, -2 ^ 63 ≤ n ∧ n ≤ 2 ^ 63 - 1 := by
  have ends : ((Session.new [] {}).eval 40
      "-9223372036854775808 -1 / 9223372036854775807 2 * cons 5 0 %".toList true).map
        (fun ending => (ending.1, ending.2.machine.stack.flatMap Value.integers))
      = some (.error (.stop (.fault .remainderByZero)), [0, 5, -2 ^ 63, -2]) := by
    cbv
  obtain ⟨⟨result, next⟩, ran, same⟩ := Option.map_eq_some_iff.mp ends
  obtain ⟨rfl, left⟩ := Prod.mk.inj same
  exact ⟨next, ran, left, (integers_are_64_bit (.eval .refl ran)).1⟩

end Session

end StackText
