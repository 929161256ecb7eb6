import StackText.Proofs.Machine.FailingInstruction

/-! Where the user does not interrupt at the end of the input, no run is interrupted, and none
changes that.
-/

namespace StackText

/-- A builtin leaves alone whether the user interrupts. -/
theorem Builtin.interrupts_run (b : Builtin) (serial : Nat) (operands : List Value)
    (console : Console)
    : (b.run serial operands console).2.interrupts = console.interrupts := by
  rw [run.eq_def]
  split
  · rfl
  · rfl
  · have taken := console.consumes_readWord.interrupts
    split
    · next ends => rw [ends] at taken; exact taken
    · next word =>
        rw [word] at taken
        split <;> exact taken
  · have taken := console.consumes_readLine.interrupts
    split
    · next ends => rw [ends] at taken; exact taken
    · next line => rw [line] at taken; exact taken
  · rfl
  · rfl
  · split <;> rfl

/-- A builtin is interrupted only if the user does that. -/
theorem Builtin.interrupts_of_interrupted {b : Builtin} {serial : Nat} {operands : List Value}
    {console after : Console}
    (failed : b.run serial operands console = (.error .interrupted, after))
    : console.interrupts = true := by
  rw [run.eq_def] at failed
  split at failed
  · cases failed
  · cases failed
  · split at failed
    · cases failed
    · split at failed <;> cases failed
  · have taken := console.consumes_readLine.interrupts
    split at failed
    · next ends =>
        rw [ends] at taken
        rw [← taken]
        split at failed
        · next interrupts => exact interrupts
        · cases failed
    · cases failed
  · cases failed
  · cases failed
  · split at failed <;> cases failed

namespace State

/-- What stops a run is a builtin, or a fault that leaves the console alone. -/
theorem effect_stop_cases {s last : State} {i : Instruction} {why : Stop}
    (effect : s.effect i = .stop why last)
    : (∃ b : Builtin,
        b.run s.serial (s.stack.take b.arity).reverse s.console = (.error why, last.console))
      ∨ (last.console = s.console ∧ ∃ fault, why = .fault fault) := by
  obtain ⟨op, id⟩ := i
  cases op with
  | load =>
      simp only [State.effect] at effect
      split at effect
      · cases effect
      · cases effect; exact .inr ⟨rfl, _, rfl⟩
  | assign =>
      simp only [State.effect] at effect
      split at effect
      · cases effect; exact .inr ⟨rfl, _, rfl⟩
      · split at effect
        · cases effect
        · cases effect; exact .inr ⟨rfl, _, rfl⟩
  | apply =>
      simp only [State.effect] at effect
      split at effect
      · cases effect
      · next b found =>
          rw [perform] at effect
          split at effect
          · cases effect
          · next failed => cases effect; exact .inl ⟨b, failed⟩
      · cases effect; exact .inr ⟨rfl, _, rfl⟩
      · cases effect; exact .inr ⟨rfl, _, rfl⟩

/-- No instruction changes whether the user interrupts. -/
theorem kept_interrupts (interrupts : Bool)
    : Kept fun s => s.console.interrupts = interrupts where
  next := by
    intro s t i before effect
    rcases effect_next effect with ⟨_, _, _, rfl⟩ | ⟨_, _, _, _, _, rfl⟩
      | ⟨b, result, console, _, _, ran, rfl⟩
    · exact before
    · exact before
    · have kept := b.interrupts_run s.serial (s.stack.take b.arity).reverse s.console
      rw [ran] at kept
      exact kept.trans before
  stop := by
    intro s t i why before effect
    rcases effect_stop_cases effect with ⟨b, failed⟩ | ⟨same, _⟩
    · have kept := b.interrupts_run s.serial (s.stack.take b.arity).reverse s.console
      rw [failed] at kept
      exact kept.trans before
    · rw [same]
      exact before

end State

/-- A run is not interrupted unless the user does that. -/
theorem Machine.not_interrupted {m : Machine} (calm : m.console.interrupts = false) {fuel : Nat}
    {ending : Ending} (ran : m.run fuel = some ending)
    : ending.stop ≠ some .interrupted := by
  obtain ⟨steps, last, _, reached, closes⟩ := closesWith_of_run ran
  have moment : last.console.interrupts = false := (State.kept_interrupts false).after calm reached
  cases closes with
  | finished idle => simp
  | @stopped why _ step =>
      rintro ⟨⟩
      cases stepsTo_of_step step with
      | faulty blames => cases blames
      | stop known effect =>
          rcases State.effect_stop_cases effect with ⟨b, failed⟩ | ⟨_, fault, other⟩
          · cases moment.symm.trans (Builtin.interrupts_of_interrupted failed)
          · cases other

end StackText
