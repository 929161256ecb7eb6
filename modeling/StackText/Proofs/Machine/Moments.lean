import StackText.Proofs.Machine.WellFormedCode

/-! The moments of a run. A step takes the next instruction from the innermost call and does to the
state what the instruction does, or only ends, starts or refuses a call; a run ends with the step
behind its last moment. None of this needs well-formed code, so whatever every instruction keeps
holds at every moment and at the end.
-/

namespace StackText

namespace Machine

-----------------------------------------------------------------------------------------
-- The next instruction
-----------------------------------------------------------------------------------------

/-- The next instruction of the innermost call and the code left behind it. There is none if that
call is over, or its code goes on with an unknown opcode or part of an instruction.
-/
def fetch? : List (List UInt8) → Option (Instruction × List (List UInt8))
  | (op :: b₃ :: b₂ :: b₁ :: b₀ :: code) :: callers =>
      (Opcode.ofByte? op).map fun op => (⟨op, idOfBytes b₃ b₂ b₁ b₀⟩, code :: callers)
  | _ => none

/-- The instruction that a machine carries out next. -/
def instruction? (m : Machine) : Option Instruction := (fetch? m.frames).map Prod.fst

theorem instruction?_of_fetch? {m : Machine} {i : Instruction} {frames : List (List UInt8)}
    (fetched : fetch? m.frames = some (i, frames))
    : m.instruction? = some i := by
  rw [instruction?, fetched]
  rfl

/-- The calls that stay active beneath a new one. A caller that has no code left does not. -/
def staying : List (List UInt8) → List (List UInt8)
  | [] :: callers => callers
  | frames => frames

theorem call_eq_if (m : Machine) (f : Function)
    : m.call f
      = if m.depthLimit ≤ (staying m.frames).length then
          .stopped (.fault (.callDepth m.depthLimit)) m
        else .running { m with frames := f.chunk.toList :: staying m.frames } :=
  rfl

/-- A step takes the next instruction, if there is one. -/
theorem step_of_fetch? {m : Machine} {i : Instruction} {frames : List (List UInt8)}
    (fetched : fetch? m.frames = some (i, frames))
    : m.step = { m with frames }.proceed (m.state.effect i) := by
  rw [fetch?.eq_def] at fetched
  split at fetched
  · next whole =>
      obtain ⟨op, known, same⟩ := Option.map_eq_some_iff.mp fetched
      cases same
      simp only [step, whole, known]
      exact execute_eq _ _
  · cases fetched

-----------------------------------------------------------------------------------------
-- All that a step can do
-----------------------------------------------------------------------------------------

/-- (m.StepsTo progress) lists what a step can lead to: the end of the run, the end of a call, code
at fault, and each effect of the next instruction, where a call finds room or not.
-/
inductive StepsTo (m : Machine) : Progress → Prop
  | finished (idle : m.frames = [])
    : StepsTo m (.finished m)
  | returned {callers} (ended : m.frames = [] :: callers)
    : StepsTo m (.running { m with frames := callers })
  | faulty {why frames} (blames : why.blamesCode = true)
    : StepsTo m (.stopped why { m with frames })
  | next {i s frames} (known : m.instruction? = some i) (effect : m.state.effect i = .next s)
    : StepsTo m (.running { m.withState s with frames })
  | stop {i why s frames} (known : m.instruction? = some i)
    (effect : m.state.effect i = .stop why s)
    : StepsTo m (.stopped why { m.withState s with frames })
  | call {i f frames} (known : m.instruction? = some i) (effect : m.state.effect i = .call f)
    : StepsTo m (.running { m with frames })
  | tooDeep {i f frames limit} (known : m.instruction? = some i)
    (effect : m.state.effect i = .call f)
    : StepsTo m (.stopped (.fault (.callDepth limit)) { m with frames })

/-- Without a next instruction the run is over, the innermost call ends, or its code is at fault.
-/
theorem stepsTo_of_fetch?_none {m : Machine} (none : fetch? m.frames = none)
    : m.StepsTo m.step := by
  rw [step]
  split
  · next idle => exact .finished idle
  · next ended => exact .returned ended
  · next whole =>
      rw [whole, fetch?, Option.map_eq_none_iff] at none
      rw [none]
      exact .faulty rfl
  · exact .faulty rfl

/-- Every step is one of those listed. -/
theorem stepsTo_step (m : Machine)
    : m.StepsTo m.step := by
  cases fetched : fetch? m.frames with
  | none => exact stepsTo_of_fetch?_none fetched
  | some taken =>
      obtain ⟨i, frames⟩ := taken
      have known := instruction?_of_fetch? fetched
      rw [step_of_fetch? fetched]
      cases effect : m.state.effect i with
      | next s => exact .next known effect
      | stop why s => exact .stop known effect
      | call f =>
          rw [proceed, call_eq_if]
          split
          · exact .tooDeep known effect
          · exact .call known effect

theorem stepsTo_of_step {m : Machine} {progress : Progress} (step : m.step = progress)
    : m.StepsTo progress :=
  step ▸ m.stepsTo_step

-----------------------------------------------------------------------------------------
-- The end of a run
-----------------------------------------------------------------------------------------

/-- (m.ClosesWith ending) holds if the next step of the machine ends its run so. -/
inductive ClosesWith (m : Machine) : Ending → Prop
  | finished (idle : m.frames = [])
    : ClosesWith m ⟨none, m⟩
  | stopped {why last} (step : m.step = .stopped why last)
    : ClosesWith m ⟨some why, { last with frames := [] }⟩

/-- A run that ends has a last moment, by induction on its steps. -/
theorem closesWith_of_run {fuel : Nat} {m : Machine} {ending : Ending}
    (ran : m.run fuel = some ending)
    : ∃ steps last, steps < fuel ∧ m.after steps = some last ∧ last.ClosesWith ending := by
  induction fuel generalizing m with
  | zero => cases ran
  | succ fuel ih =>
      rw [run] at ran
      split at ran
      · next next step =>
          obtain ⟨steps, last, bound, reached, closes⟩ := ih ran
          exact ⟨steps + 1, last, by omega, by rw [after, step]; exact reached, closes⟩
      · next last step =>
          cases ran
          cases stepsTo_of_step step with
          | finished idle => exact ⟨0, m, by omega, rfl, .finished idle⟩
      · next step =>
          cases ran
          exact ⟨0, m, by omega, rfl, .stopped step⟩

/-- A moment whose step stops is the last of the run, by induction on the steps up to it. -/
theorem run_of_after {start m last : Machine} {steps : Nat} (reached : start.after steps = some m)
    {why : Stop} (step : m.step = .stopped why last) {fuel : Nat} (enough : steps < fuel)
    : start.run fuel = some ⟨some why, { last with frames := [] }⟩ := by
  induction steps generalizing start fuel with
  | zero =>
      obtain ⟨fuel, rfl⟩ : ∃ n, fuel = n + 1 := ⟨fuel - 1, by omega⟩
      cases reached
      rw [run, step]
  | succ steps ih =>
      obtain ⟨fuel, rfl⟩ : ∃ n, fuel = n + 1 := ⟨fuel - 1, by omega⟩
      rw [after] at reached
      split at reached
      · next next leads =>
          rw [run, leads]
          exact ih reached (by omega)
      · cases reached

/-- A step from a moment leads to the next one, by induction on the steps up to it. -/
theorem after_succ {start m next : Machine} {steps : Nat} (reached : start.after steps = some m)
    (step : m.step = .running next)
    : start.after (steps + 1) = some next := by
  induction steps generalizing start with
  | zero =>
      cases reached
      rw [after, step]
      rfl
  | succ steps ih =>
      rw [after] at reached
      split at reached
      · next leads =>
          rw [after, leads]
          exact ih reached
      · cases reached

/-- The limit of active calls stays what it is, by induction on the steps. -/
theorem depthLimit_after {m later : Machine} {steps : Nat} (reached : m.after steps = some later)
    : later.depthLimit = m.depthLimit := by
  induction steps generalizing m with
  | zero => cases reached; rfl
  | succ steps ih =>
      rw [after] at reached
      split at reached
      · next next step =>
          rw [ih reached]
          cases stepsTo_of_step step <;> rfl
      · cases reached

end Machine

-----------------------------------------------------------------------------------------
-- What every instruction keeps
-----------------------------------------------------------------------------------------

/-- (State.Kept holds) is the case if what holds of a state does so after every instruction, whether
that leads on or stops the run.
-/
structure State.Kept (holds : State → Prop) : Prop where
  next : ∀ {s t i}, holds s → s.effect i = .next t → holds t
  stop : ∀ {s t i why}, holds s → s.effect i = .stop why t → holds t

namespace State.Kept

variable {holds : State → Prop}

theorem running (kept : State.Kept holds) {m next : Machine} (before : holds m.state)
    (step : m.step = .running next)
    : holds next.state := by
  cases Machine.stepsTo_of_step step with
  | returned | call => exact before
  | next _ effect => exact kept.next before effect

theorem stopped (kept : State.Kept holds) {m last : Machine} {why : Stop} (before : holds m.state)
    (step : m.step = .stopped why last)
    : holds last.state := by
  cases Machine.stepsTo_of_step step with
  | faulty | tooDeep => exact before
  | stop _ effect => exact kept.stop before effect

/-- What every instruction keeps holds at each moment, by induction on the steps. -/
theorem after (kept : State.Kept holds) {m later : Machine} {steps : Nat} (before : holds m.state)
    (reached : m.after steps = some later)
    : holds later.state := by
  induction steps generalizing m with
  | zero => cases reached; exact before
  | succ steps ih =>
      rw [Machine.after] at reached
      split at reached
      · next step => exact ih (kept.running before step) reached
      · cases reached

/-- What every instruction keeps holds at the end of a run. -/
theorem run (kept : State.Kept holds) {m : Machine} {fuel : Nat} {ending : Machine.Ending}
    (before : holds m.state) (ran : m.run fuel = some ending)
    : holds ending.machine.state := by
  obtain ⟨steps, last, _, reached, closes⟩ := Machine.closesWith_of_run ran
  have moment := kept.after before reached
  cases closes with
  | finished idle => exact moment
  | stopped step =>
      have last := kept.stopped moment step
      exact last

end State.Kept

/-- A property that results inherit from operands holds of all values throughout a run. -/
theorem State.kept_every {holds : Value → Prop} (inherited : Value.Inherited holds)
    : State.Kept (State.Every holds) where
  next every effect := every.next inherited effect
  stop every effect := every.stop effect

end StackText
