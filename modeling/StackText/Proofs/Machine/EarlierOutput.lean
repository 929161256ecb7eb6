import StackText.Proofs.Machine.Moments

/-! A run only adds to the output. What was written before has no influence on it and stays in front
of what it writes.
-/

namespace StackText

-----------------------------------------------------------------------------------------
-- Text written before
-----------------------------------------------------------------------------------------

/-- The console with a text written before all else. -/
def Console.behind (text : String) (console : Console) : Console :=
  { console with output := text ++ console.output }

/-- The state with a text written before all else. -/
def State.behind (text : String) (s : State) : State := { s with console := s.console.behind text }

/-- The effect with a text written before all else. -/
def Effect.behind (text : String) : Effect → Effect
  | .next s => .next (s.behind text)
  | .stop why s => .stop why (s.behind text)
  | .call f => .call f

/-- The machine with a text written before all else. -/
def Machine.behind (text : String) (m : Machine) : Machine :=
  { m with console := m.console.behind text }

/-- The progress with a text written before all else. -/
def Progress.behind (text : String) : Progress → Progress
  | .running m => .running (m.behind text)
  | .finished m => .finished (m.behind text)
  | .stopped why m => .stopped why (m.behind text)

/-- The ending with a text written before all else. -/
def Machine.Ending.behind (text : String) (ending : Machine.Ending) : Machine.Ending :=
  ⟨ending.stop, ending.machine.behind text⟩

-----------------------------------------------------------------------------------------
-- Instructions
-----------------------------------------------------------------------------------------

theorem Console.write_behind (console : Console) (text more : String)
    : (console.behind text).write more = (console.write more).behind text := by
  simp [write, behind, String.append_assoc]

/-- A builtin writes behind what was written before, by cases on those that use the console. -/
theorem Builtin.run_behind (b : Builtin) (serial : Nat) (operands : List Value) (console : Console)
    (text : String)
    : b.run serial operands (console.behind text)
      = ((b.run serial operands console).1, (b.run serial operands console).2.behind text) := by
  rw [run.eq_def, run.eq_def _ _ _ console]
  split
  · rw [Console.write_behind]
  · rw [Console.write_behind]
  · rw [show (console.behind text).readWord
      = (console.readWord.1, console.readWord.2.behind text) from rfl]
    obtain ⟨word, rest⟩ := console.readWord
    cases word with
    | none => rfl
    | some word =>
        simp only
        split <;> rfl
  · rw [show (console.behind text).readLine
      = (console.readLine.1, console.readLine.2.behind text) from rfl]
    obtain ⟨line, rest⟩ := console.readLine
    cases line <;> rfl
  · rfl
  · rfl
  · split <;> rfl

namespace State

theorem perform_behind (s : State) (b : Builtin) (text : String)
    : (s.behind text).perform b = (s.perform b).behind text := by
  simp only [perform, behind, Builtin.run_behind]
  generalize b.run s.serial (s.stack.take b.arity).reverse s.console = ran
  obtain ⟨result, console⟩ := ran
  cases result <;> rfl

/-- An instruction does the same behind what was written before, by cases on its opcode. -/
theorem effect_behind (s : State) (i : Instruction) (text : String)
    : (s.behind text).effect i = (s.effect i).behind text := by
  obtain ⟨op, id⟩ := i
  have name : (s.behind text).slotName id = s.slotName id := rfl
  have slots : (s.behind text).store = s.store := rfl
  have operands : (s.behind text).stack = s.stack := rfl
  cases op with
  | load =>
      simp only [effect, slots]
      cases s.store.get? id <;> rfl
  | apply =>
      simp only [effect, name, slots]
      cases s.store.get? id with
      | none => rfl
      | some v =>
          cases v with
          | builtin b => exact perform_behind s b text
          | _ => rfl
  | assign =>
      simp only [effect, name, slots, operands]
      cases s.stack with
      | nil => rfl
      | cons v stack =>
          simp only
          split <;> rfl

end State

-----------------------------------------------------------------------------------------
-- Steps and runs
-----------------------------------------------------------------------------------------

namespace Machine

theorem proceed_behind (m : Machine) (effect : Effect) (text : String)
    : (m.behind text).proceed (effect.behind text) = (m.proceed effect).behind text := by
  cases effect with
  | next s | stop why s => rfl
  | call f =>
      show (m.behind text).call f = (m.call f).behind text
      rw [call_eq_if, call_eq_if]
      show (if m.depthLimit ≤ (staying m.frames).length then _ else _) = _
      split <;> rfl

theorem step_behind (m : Machine) (text : String)
    : (m.behind text).step = m.step.behind text := by
  cases fetched : fetch? m.frames with
  | none =>
      -- No instruction is carried out, so the console is not looked at.
      rw [step, step, show (m.behind text).frames = m.frames from rfl]
      split
      · rfl
      · rfl
      · next op b₃ b₂ b₁ b₀ code callers whole =>
          rw [whole, fetch?, Option.map_eq_none_iff] at fetched
          simp only [fetched]
          rfl
      · rfl
  | some taken =>
      obtain ⟨i, frames⟩ := taken
      have again : fetch? (m.behind text).frames = some (i, frames) := fetched
      rw [step_of_fetch? fetched, step_of_fetch? again, ← proceed_behind]
      exact congrArg _ (State.effect_behind m.state i text)

/-- A run takes the same steps behind what was written before, by induction on them. -/
theorem run_behind (fuel : Nat) (m : Machine) (text : String)
    : (m.behind text).run fuel = (m.run fuel).map (Ending.behind text) := by
  induction fuel generalizing m with
  | zero => rfl
  | succ fuel ih =>
      rw [run, run, step_behind]
      cases m.step with
      | running next => exact ih next
      | finished last => rfl
      | stopped why last => rfl

end Machine

end StackText
