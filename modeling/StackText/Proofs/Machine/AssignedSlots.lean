import StackText.Proofs.Machine.Moments

/-! What a run does to the store: it assigns to slots, and nothing else. No id is given out, no slot
is added, and a slot that has another value than before was assigned to by an instruction on it. In
well-formed code such a slot has a name.
-/

namespace StackText

-----------------------------------------------------------------------------------------
-- Instructions
-----------------------------------------------------------------------------------------

theorem Store.get?_set_of_ne (store : Store) {id other : Nat} (v : Value) (apart : other ≠ id)
    : (store.set other v).get? id = store.get? id :=
  Array.getElem?_setIfInBounds_ne apart

/-- Only an assignment to a slot gives it another value. -/
theorem State.get?_of_next {s t : State} {i : Instruction} (effect : s.effect i = .next t)
    {id : Nat} (other : i ≠ ⟨.assign, id⟩)
    : t.store.get? id = s.store.get? id := by
  rcases effect_next effect with ⟨v, _, _, rfl⟩ | ⟨v, stack, assigns, _, _, rfl⟩
    | ⟨b, result, console, _, _, _, rfl⟩
  · rfl
  · refine s.store.get?_set_of_ne v ?_
    rintro rfl
    exact other (by rw [← assigns])
  · rfl

/-- Every instruction keeps the symbol table and the number of slots. -/
theorem State.kept_symbols (table : SymbolTable) (size : Nat)
    : State.Kept fun s => s.store.symbols = table ∧ s.store.size = size where
  next := by
    intro s t i same effect
    rcases effect_next effect with ⟨v, _, _, rfl⟩ | ⟨v, stack, _, _, _, rfl⟩
      | ⟨b, result, console, _, _, _, rfl⟩
    · exact same
    · exact ⟨same.1, by rw [← same.2]; simp [Store.size, Store.set]⟩
    · exact same
  stop := by
    intro s t i why same effect
    rw [(effect_stop effect).1]
    exact same

-----------------------------------------------------------------------------------------
-- Runs
-----------------------------------------------------------------------------------------

namespace Machine

theorem symbols_after {start m : Machine} {steps : Nat} (reached : start.after steps = some m)
    : m.store.symbols = start.store.symbols :=
  ((State.kept_symbols start.store.symbols start.store.size).after (m := start) ⟨rfl, rfl⟩
    reached).1

/-- (start.Assigned steps id) holds if an assignment to the slot is carried out in the first steps
of a run.
-/
def Assigned (start : Machine) (steps id : Nat) : Prop :=
  ∃ place m next,
    place < steps
    ∧ start.after place = some m
    ∧ m.instruction? = some ⟨.assign, id⟩
    ∧ m.step = .running next

/-- A step that leads on keeps a slot, unless it assigns to it. -/
theorem get?_of_running {m next : Machine} (step : m.step = .running next) {id : Nat}
    (other : m.instruction? ≠ some ⟨.assign, id⟩)
    : next.store.get? id = m.store.get? id := by
  cases stepsTo_of_step step with
  | returned | call => rfl
  | next known effect =>
      refine State.get?_of_next effect ?_
      rintro rfl
      exact other known

theorem store_of_stopped {m last : Machine} {why : Stop} (step : m.step = .stopped why last)
    : last.store = m.store := by
  cases stepsTo_of_step step with
  | faulty | tooDeep => rfl
  | stop _ effect => exact (State.effect_stop effect).1

/-- A slot has the same value at each moment, unless it was assigned to, by induction on the steps.
-/
theorem get?_of_after {start m : Machine} {steps : Nat} (reached : start.after steps = some m)
    {id : Nat} (other : ¬start.Assigned steps id)
    : m.store.get? id = start.store.get? id := by
  induction steps generalizing start with
  | zero => cases reached; rfl
  | succ steps ih =>
      rw [after] at reached
      split at reached
      · next next step =>
          have later : ¬next.Assigned steps id := by
            rintro ⟨place, m, onward, bound, there, assigns, leads⟩
            exact other ⟨place + 1, m, onward, by omega, by rw [after, step]; exact there, assigns,
              leads⟩
          have first : start.instruction? ≠ some ⟨.assign, id⟩ := fun assigns =>
            other ⟨0, start, next, by omega, rfl, assigns, step⟩
          exact (ih reached later).trans (get?_of_running step first)
      · cases reached

theorem Assigned.more {start : Machine} {steps more id : Nat} (assigned : start.Assigned steps id)
    (bound : steps ≤ more)
    : start.Assigned more id := by
  obtain ⟨place, m, next, early, reached, assigns, leads⟩ := assigned
  exact ⟨place, m, next, by omega, reached, assigns, leads⟩

/-- The next instruction of a closed machine is closed over its symbol table. -/
theorem Closed.instruction {m : Machine} (closed : m.Closed) {i : Instruction}
    (known : m.instruction? = some i)
    : i.Closed m.store.symbols := by
  obtain ⟨frames, same, each⟩ := closed.frames
  match frames with
  | [] => rw [instruction?, same] at known; cases known
  | [] :: callers => rw [instruction?, same] at known; cases known
  | (j :: code) :: callers =>
      obtain ⟨fits, instruction⟩ := each (j :: code) (by simp) j (by simp)
      have next : m.instruction? = some j := by
        simp [instruction?, same, fetch?, Instruction.bytes_eq, idOfBytes_idBytes fits]
      cases next.symm.trans known
      exact instruction

/-- (start.Reassigns steps m) holds if a run has changed the store by assignments to named slots
only: the symbol table and the number of slots are the same, and a slot with another value has a
name and was assigned to in the given number of steps.
-/
structure Reassigns (start : Machine) (steps : Nat) (m : Machine) : Prop where
  symbols : m.store.symbols = start.store.symbols
  size : m.store.size = start.store.size
  changed
    : ∀ id,
        m.store.get? id ≠ start.store.get? id
        → (∃ name, start.store.name? id = some name) ∧ start.Assigned steps id

/-- A slot that closed code assigns to has a name. -/
theorem Closed.name_of_assigned {start : Machine} (closed : start.Closed) {steps id : Nat}
    (assigned : start.Assigned steps id)
    : ∃ name, start.store.name? id = some name := by
  obtain ⟨place, m, next, _, reached, assigns, _⟩ := assigned
  have leads := closed.after reached
  obtain ⟨name, known⟩ := (leads.closed.instruction assigns).named (by simp)
  rw [leads.symbols] at known
  exact ⟨name, Store.name?_eq_some_iff.mpr known⟩

/-- At each moment of a run of a closed machine only named slots have been reassigned. -/
theorem Closed.reassigns_after {start m : Machine} (closed : start.Closed) {steps : Nat}
    (reached : start.after steps = some m)
    : start.Reassigns steps m := by
  obtain ⟨symbols, size⟩ := (State.kept_symbols start.store.symbols start.store.size).after
    (m := start) ⟨rfl, rfl⟩ reached
  refine ⟨symbols, size, ?_⟩
  intro id changed
  have assigned : start.Assigned steps id :=
    Classical.byContradiction fun never => changed (get?_of_after reached never)
  exact ⟨closed.name_of_assigned assigned, assigned⟩

/-- However a run of a closed machine ends, only named slots have been reassigned. -/
theorem Closed.reassigns_run {start : Machine} (closed : start.Closed) {fuel : Nat}
    {ending : Ending} (ran : start.run fuel = some ending)
    : start.Reassigns fuel ending.machine := by
  obtain ⟨steps, last, bound, reached, closes⟩ := closesWith_of_run ran
  obtain ⟨symbols, size, changed⟩ := closed.reassigns_after reached
  have same : ending.machine.store = last.store := by
    cases closes with
    | finished idle => rfl
    | stopped step =>
        have kept := store_of_stopped step
        exact kept
  refine ⟨same ▸ symbols, same ▸ size, ?_⟩
  intro id other
  rw [same] at other
  obtain ⟨named, assigned⟩ := changed id other
  exact ⟨named, assigned.more (by omega)⟩

/-- A slot without a name keeps its value. -/
theorem Reassigns.get?_of_unnamed {start m : Machine} {steps : Nat}
    (reassigns : start.Reassigns steps m) {id : Nat} (unnamed : start.store.name? id = none)
    : m.store.get? id = start.store.get? id := by
  refine Classical.byContradiction fun changed => ?_
  obtain ⟨⟨name, named⟩, _⟩ := reassigns.changed id changed
  cases unnamed.symm.trans named

end Machine

end StackText
