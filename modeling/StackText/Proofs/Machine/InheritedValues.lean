import StackText.Proofs.Machine.Effect
import StackText.Proofs.Number.IntegerRange
import StackText.Proofs.Store.Growth

/-! What the values of a machine have in common. A builtin makes a number or a string, puts its
operands into a pair or takes a pair apart, and instructions only move values. So a property that
passes on from operands to such results holds of all values in the store and on the stack, if it did
so before.
-/

namespace StackText

-----------------------------------------------------------------------------------------
-- Builtins
-----------------------------------------------------------------------------------------

/-- (Inherited holds) is the case for a property of values that all results of builtins have if
their operands have it: it holds of the integers of the language and of remainders of integers that
have it, of all doubles and strings, and of exactly those pairs of which both halves have it.
-/
structure Value.Inherited (holds : Value → Prop) : Prop where
  int : ∀ {n}, Integer.InRange n → holds (.int n)
  remainder : ∀ {m}, holds (.int m) → ∀ n, holds (.int (Integer.remainder m n))
  float : ∀ x identity, holds (.float x identity)
  str : ∀ text, holds (.str text)
  pair : ∀ {serial left right}, holds (.pair serial left right) ↔ holds left ∧ holds right

namespace Value.Inherited

variable {holds : Value → Prop} {b : Builtin} {v : Value}

theorem ofBool (inherited : Inherited holds) (truth : Bool)
    : holds (.ofBool truth) :=
  inherited.int (by cases truth <;> decide)

theorem onInts (inherited : Inherited holds) {m n : Int} (left : holds (.int m))
    (computed : b.onInts m n = .ok v)
    : holds v := by
  cases b with
  | add | sub | mul => cases computed; exact inherited.int (Integer.inRange_wrap _)
  | div =>
      rw [Builtin.onInts] at computed
      split at computed
      · cases computed
      · cases computed; exact inherited.int (Integer.inRange_wrap _)
  | mod =>
      rw [Builtin.onInts] at computed
      split at computed
      · cases computed
      · cases computed; exact inherited.remainder left n
  | lt | gt | le | ge => cases computed; exact inherited.ofBool _
  | _ => cases computed

theorem onFloats (inherited : Inherited holds) {x y : Float} {fresh : Identity}
    (computed : b.onFloats x y fresh = .ok v)
    : holds v := by
  cases b with
  | add | sub | mul | div => cases computed; exact inherited.float _ _
  | mod =>
      cases computed
      rw [Builtin.remainderFloats]
      split <;> exact inherited.float _ _
  | lt | gt | le | ge => cases computed; exact inherited.ofBool _
  | _ => cases computed

theorem onNumbers (inherited : Inherited holds) {l r : Value} {fresh : Identity} (left : holds l)
    (computed : b.onNumbers l r fresh = .ok v)
    : holds v := by
  rw [Builtin.onNumbers] at computed
  split at computed
  · next m n taken =>
      have same : l = .int m := by
        cases l <;> cases r <;> cases taken
        rfl
      exact inherited.onInts (same ▸ left) computed
  · exact inherited.onFloats computed
  · cases computed

/-- What a builtin computes is a number, an operand, a part of one or a pair of them. -/
theorem compute (inherited : Inherited holds) {serial : Nat} {operands : List Value}
    (before : ∀ w ∈ operands, holds w) (computed : b.compute serial operands = .ok v)
    : holds v := by
  rw [Builtin.compute.eq_def] at computed
  split at computed
  -- The other words give a truth value or a negated number, or fail.
  any_goals cases computed
  any_goals exact inherited.ofBool _
  · exact inherited.pair.mpr ⟨before _ (by simp), before _ (by simp)⟩
  · exact inherited.int (Integer.inRange_wrap _)
  · exact inherited.float _ _
  · exact (inherited.pair.mp (before _ (List.mem_singleton_self _))).1
  · exact (inherited.pair.mp (before _ (List.mem_singleton_self _))).2
  · exact inherited.onNumbers (before _ (by simp)) computed

theorem wordValue (inherited : Inherited holds) {serial : Nat} {word : List Char}
    (read : Builtin.wordValue serial word = .ok v)
    : holds v := by
  rw [Builtin.wordValue] at read
  split at read
  · next written => cases read; exact inherited.int (Numeral.inRange_of_read written)
  · cases read; exact inherited.float _ _
  · cases read; exact inherited.str _
  · cases read

/-- What a builtin pushes has the property if all its operands do. -/
theorem run (inherited : Inherited holds) {serial : Nat} {operands : List Value}
    {console after : Console} (before : ∀ w ∈ operands, holds w)
    (ran : b.run serial operands console = (.ok (some v), after))
    : holds v := by
  rw [Builtin.run.eq_def] at ran
  split at ran
  · cases ran
  · cases ran
  · split at ran
    · cases ran
    · split at ran
      · next read => cases ran; exact inherited.wordValue read
      · cases ran
  · split at ran
    · cases ran
    · cases ran; exact inherited.str _
  · cases ran
  · cases ran
  · split at ran
    · next computed => cases ran; exact inherited.compute before computed
    · cases ran

end Value.Inherited

-----------------------------------------------------------------------------------------
-- Instructions
-----------------------------------------------------------------------------------------

namespace State

/-- (s.Every holds) says that a property holds of all values in the store and on the stack. -/
structure Every (holds : Value → Prop) (s : State) : Prop where
  store : s.store.Every holds
  stack : ∀ v ∈ s.stack, holds v

/-- An instruction that leads on moves values or runs a builtin. -/
theorem Every.next {holds : Value → Prop} (inherited : Value.Inherited holds) {s next : State}
    (every : s.Every holds) {i : Instruction} (effect : s.effect i = .next next)
    : next.Every holds := by
  rcases effect_next effect with ⟨v, _, found, rfl⟩ | ⟨v, stack, _, top, _, rfl⟩
    | ⟨b, result, console, _, _, ran, rfl⟩
  · exact ⟨every.store, List.forall_mem_cons.mpr ⟨every.store _ _ found, every.stack⟩⟩
  · obtain ⟨value, below⟩ : holds v ∧ ∀ w ∈ stack, holds w :=
      List.forall_mem_cons.mp (top ▸ every.stack)
    exact ⟨every.store.set i.id value, below⟩
  · refine ⟨every.store, ?_⟩
    intro w member
    rcases List.mem_append.mp member with made | below
    · obtain rfl : result = some w := Option.mem_toList.mp made
      refine inherited.run ?_ ran
      intro operand taken
      exact every.stack operand (List.mem_of_mem_take (List.mem_reverse.mp taken))
    · exact every.stack w (List.mem_of_mem_drop below)

/-- An instruction that stops the run adds no value. -/
theorem Every.stop {holds : Value → Prop} {s last : State} (every : s.Every holds)
    {i : Instruction} {why : Stop} (effect : s.effect i = .stop why last)
    : last.Every holds := by
  obtain ⟨store, stack⟩ := effect_stop effect
  refine ⟨store ▸ every.store, ?_⟩
  intro v member
  rcases stack with same | popped
  · exact every.stack v (same ▸ member)
  · exact every.stack v (List.mem_of_mem_tail (popped ▸ member))

end State

end StackText
