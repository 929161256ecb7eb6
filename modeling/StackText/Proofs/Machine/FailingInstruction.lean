import Mathlib.Data.List.TakeDrop
import StackText.Proofs.Machine.Moments

/-! An instruction that stops a run changes nothing but the input it has taken. This holds of every
instruction of well-formed code, since the only one that would lose an operand assigns to a slot
that does not exist.
-/

namespace StackText

-----------------------------------------------------------------------------------------
-- Input that was taken
-----------------------------------------------------------------------------------------

/-- (before.Consumes after) holds if the console differs at most in the input that was taken. -/
structure Console.Consumes (before after : Console) : Prop where
  input : after.input <:+ before.input
  output : after.output = before.output
  interrupts : after.interrupts = before.interrupts

namespace Console

theorem Consumes.refl (console : Console)
    : console.Consumes console :=
  ⟨List.suffix_rfl, rfl, rfl⟩

theorem consumes_readWord (console : Console)
    : console.Consumes console.readWord.2 := by
  refine ⟨?_, rfl, rfl⟩
  simp only [readWord, List.span_eq_takeWhile_dropWhile]
  have blanks : console.input.dropWhile Text.isBlank <:+ console.input :=
    List.dropWhile_suffix Text.isBlank
  have word := List.dropWhile_suffix (l := console.input.dropWhile Text.isBlank) (!Text.isBlank ·)
  exact (List.drop_suffix 1 _).trans (word.trans blanks)

theorem suffix_nextLine (text : List Char)
    : (Text.nextLine text).2 <:+ text := by
  rw [Text.nextLine, List.span_eq_takeWhile_dropWhile]
  have behind := List.dropWhile_suffix (l := text) (· ≠ '\n')
  split
  · exact List.nil_suffix
  · next same =>
      obtain ⟨_, rest⟩ := Prod.mk.inj same
      rw [rest] at behind
      exact (List.suffix_cons _ _).trans behind

theorem consumes_readLine (console : Console)
    : console.Consumes console.readLine.2 :=
  ⟨suffix_nextLine console.input, rfl, rfl⟩

end Console

/-- (b.reads) holds of the builtins that take input. -/
def Builtin.reads : Builtin → Bool
  | .read | .readln => true
  | _ => false

/-- A builtin that fails has written nothing, and taken input only if that is its purpose. -/
theorem Builtin.consumes_of_error {b : Builtin} {serial : Nat} {operands : List Value}
    {console after : Console} {why : Stop}
    (failed : b.run serial operands console = (.error why, after))
    : console.Consumes after ∧ (b.reads = false → after = console) := by
  rw [run.eq_def] at failed
  split at failed
  · cases failed
  · cases failed
  · have taken := console.consumes_readWord
    refine ⟨?_, fun other => absurd other (by decide)⟩
    split at failed
    · next ends => cases failed; rw [ends] at taken; exact taken
    · next word =>
        rw [word] at taken
        split at failed
        · cases failed
        · cases failed; exact taken
  · have taken := console.consumes_readLine
    refine ⟨?_, fun other => absurd other (by decide)⟩
    split at failed
    · next ends => cases failed; rw [ends] at taken; exact taken
    · cases failed
  · cases failed; exact ⟨.refl console, fun _ => rfl⟩
  · cases failed; exact ⟨.refl console, fun _ => rfl⟩
  · split at failed
    · cases failed
    · cases failed; exact ⟨.refl console, fun _ => rfl⟩

-----------------------------------------------------------------------------------------
-- The instruction that fails
-----------------------------------------------------------------------------------------

/-- (s.Leaves i last) holds if the last state is the given one but for input that was taken, by a
builtin that reads in the slot of the instruction.
-/
structure State.Leaves (s : State) (i : Instruction) (last : State) : Prop where
  same : last = { s with console := last.console }
  consumes : s.console.Consumes last.console
  reader
    : last.console ≠ s.console
      → ∃ b, s.store.get? i.id = some (.builtin b) ∧ b.reads = true

theorem State.Leaves.refl (s : State) (i : Instruction)
    : s.Leaves i s :=
  ⟨rfl, .refl s.console, fun other => absurd rfl other⟩

/-- A builtin that fails leaves the state as it was but for input. -/
theorem State.leaves_of_perform {s last : State} {i : Instruction} {b : Builtin} {why : Stop}
    (found : s.store.get? i.id = some (.builtin b)) (performed : s.perform b = .stop why last)
    : s.Leaves i last := by
  rw [perform] at performed
  split at performed
  · cases performed
  · next failed =>
      cases performed
      obtain ⟨consumes, silent⟩ := Builtin.consumes_of_error failed
      refine ⟨rfl, consumes, fun other => ⟨b, found, ?_⟩⟩
      cases reads : b.reads with
      | true => rfl
      | false => exact absurd (silent reads) other

/-- An instruction that stops the run without its code being at fault leaves the state as it was but
for input, by cases on its opcode.
-/
theorem State.leaves_of_stop {s last : State} {i : Instruction} {why : Stop}
    (effect : s.effect i = .stop why last) (innocent : why.blamesCode = false)
    : s.Leaves i last := by
  obtain ⟨op, id⟩ := i
  cases op with
  | load =>
      simp only [State.effect] at effect
      split at effect
      · cases effect
      · cases effect; cases innocent
  | assign =>
      simp only [State.effect] at effect
      split at effect
      · cases effect; exact .refl s _
      · split at effect
        · cases effect
        · cases effect; cases innocent
  | apply =>
      simp only [State.effect] at effect
      split at effect
      · cases effect
      · next found => exact State.leaves_of_perform found effect
      · cases effect; exact .refl s _
      · cases effect; cases innocent

namespace Machine

/-- A step that stops the run of a closed machine fails at an instruction, and leaves the state as
it was but for input.
-/
theorem Closed.leaves_of_stopped {m last : Machine} (closed : m.Closed) {why : Stop}
    (step : m.step = .stopped why last)
    : ∃ i, m.instruction? = some i ∧ m.state.Leaves i last.state
        ∧ last.depthLimit = m.depthLimit := by
  have innocent := (closed.stopped step).2
  cases stepsTo_of_step step with
  | faulty blames => cases blames.symm.trans innocent
  | @stop i _ s frames known effect =>
      exact ⟨i, known, State.leaves_of_stop effect innocent, rfl⟩
  | @tooDeep i f frames limit known effect => exact ⟨i, known, .refl m.state i, rfl⟩

end Machine

end StackText
