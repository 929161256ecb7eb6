import StackText.Proofs.Machine.AssignedSlots

/-! A run carries out no other code than what it starts with and what is in the store and on the
stack. No builtin makes code, and a call starts code that a slot holds. So whatever holds of all
that code, and of what is left of it behind each instruction, holds throughout the run.
-/

namespace StackText

-----------------------------------------------------------------------------------------
-- Values
-----------------------------------------------------------------------------------------

/-- (v.MadeOf good) holds if all code in a value is made of good instructions. -/
def Value.MadeOf (good : Instruction → Prop) (v : Value) : Prop :=
  ∀ chunk ∈ v.code, chunk.MadeOf good

theorem Value.MadeOf.mono {good better : Instruction → Prop} {v : Value}
    (made : v.MadeOf good) (implies : ∀ i, good i → better i)
    : v.MadeOf better :=
  fun chunk member => (made chunk member).mono implies

/-- No builtin makes code, so that a property of all code in values stays. -/
theorem Value.inherited_code (holds : Chunk → Prop)
    : Value.Inherited fun v => ∀ chunk ∈ v.code, holds chunk where
  int _ := by simp [code]
  remainder _ _ := by simp [code]
  float _ _ := by simp [code]
  str _ := by simp [code]
  pair := by simp [code, or_imp, forall_and]

-----------------------------------------------------------------------------------------
-- Steps
-----------------------------------------------------------------------------------------

namespace Machine

/-- (m.Satisfies good) holds if all code of a machine has a property: that of the functions in the
store and on the stack, and what is left to each active call.
-/
structure Satisfies (good : List Instruction → Prop) (m : Machine) : Prop where
  values : m.state.Every fun v => ∀ chunk ∈ v.code, ∃ code, chunk.Encodes code ∧ good code
  frames
    : ∀ frame ∈ m.frames,
        ∃ code, frame = encode code ∧ (∀ i ∈ code, i.id < idLimit) ∧ good code

theorem fetch?_encode {i : Instruction} (fits : i.id < idLimit) (code : List Instruction)
    (callers : List (List UInt8))
    : fetch? (encode (i :: code) :: callers) = some (i, encode code :: callers) := by
  simp [fetch?, Instruction.bytes_eq, idOfBytes_idBytes fits]

namespace Satisfies

variable {good : List Instruction → Prop} {m next : Machine} {i : Instruction}

theorem mono {better : List Instruction → Prop} (implies : ∀ {code}, good code → better code)
    (satisfies : m.Satisfies good)
    : m.Satisfies better := by
  obtain ⟨⟨store, stack⟩, frames⟩ := satisfies
  refine ⟨⟨?_, ?_⟩, ?_⟩
  · intro id v found chunk member
    obtain ⟨code, encodes, holds⟩ := store id v found chunk member
    exact ⟨code, encodes, implies holds⟩
  · intro v pushed chunk member
    obtain ⟨code, encodes, holds⟩ := stack v pushed chunk member
    exact ⟨code, encodes, implies holds⟩
  · intro frame member
    obtain ⟨code, bytes, fits, holds⟩ := frames frame member
    exact ⟨code, bytes, fits, implies holds⟩

/-- The next instruction comes first in code that has the property. -/
theorem fetch? (satisfies : m.Satisfies good) {left : List (List UInt8)}
    (fetched : Machine.fetch? m.frames = some (i, left))
    : ∃ code callers,
        m.frames = encode (i :: code) :: callers
        ∧ left = encode code :: callers
        ∧ (∀ j ∈ code, j.id < idLimit)
        ∧ good (i :: code) := by
  cases frames : m.frames with
  | nil => rw [frames] at fetched; cases fetched
  | cons frame callers =>
      obtain ⟨code, rfl, fits, here⟩ := satisfies.frames frame (by simp [frames])
      rw [frames] at fetched
      cases code with
      | nil => cases fetched
      | cons j code =>
          obtain ⟨fit, later⟩ := List.forall_mem_cons.mp fits
          cases (fetch?_encode fit code callers).symm.trans fetched
          exact ⟨code, callers, rfl, rfl, later, here⟩

/-- A step that leads on takes an instruction away, or brings in the code of a function in a slot.
So it keeps a property that code does not lose with its first instruction.
-/
theorem running (suffix : ∀ {i code}, good (i :: code) → good code) (satisfies : m.Satisfies good)
    (step : m.step = .running next)
    : next.Satisfies good := by
  cases fetched : Machine.fetch? m.frames with
  | none =>
      have unknown : m.instruction? = none := by rw [instruction?, fetched]; rfl
      cases stepsTo_of_step step with
      | returned ended =>
          exact ⟨satisfies.values, (List.forall_mem_cons.mp (ended ▸ satisfies.frames)).2⟩
      | next known | call known => cases unknown.symm.trans known
  | some taken =>
      obtain ⟨i, left⟩ := taken
      obtain ⟨code, callers, whole, rfl, fits, here⟩ := satisfies.fetch? fetched
      have beyond := (List.forall_mem_cons.mp (whole ▸ satisfies.frames)).2
      have behind := List.forall_mem_cons.mpr ⟨⟨code, rfl, fits, suffix here⟩, beyond⟩
      rw [step_of_fetch? fetched] at step
      cases effect : m.state.effect i with
      | next s =>
          rw [effect] at step
          cases step
          exact ⟨satisfies.values.next (Value.inherited_code _) effect, behind⟩
      | stop why s => rw [effect] at step; cases step
      | call f =>
          obtain ⟨body, encodes, function⟩ :=
            satisfies.values.store _ _ (State.effect_call effect).2 f.chunk (by simp [Value.code])
          obtain ⟨active, staying, called⟩ :=
            { m with frames := encode code :: callers }.call_eq f
          rw [effect, proceed, called] at step
          split at step
          · cases step
          · cases step
            refine ⟨satisfies.values, List.forall_mem_cons.mpr ⟨?_, ?_⟩⟩
            · exact ⟨body, encodes.bytes, encodes.fits, function⟩
            · exact fun frame member => behind frame (staying.subset member)

/-- All code of a machine keeps such a property throughout a run, by induction on the steps. -/
theorem after (suffix : ∀ {i code}, good (i :: code) → good code) {start : Machine}
    (satisfies : start.Satisfies good) {steps : Nat} (reached : start.after steps = some m)
    : m.Satisfies good := by
  induction steps generalizing start with
  | zero => cases reached; exact satisfies
  | succ steps ih =>
      rw [Machine.after] at reached
      split at reached
      · next step => exact ih (satisfies.running suffix step) reached
      · cases reached

/-- A machine that starts some code has a property if that code and all code in its state do. -/
theorem start {chunk : Chunk}
    (each : ∀ held ∈ chunk :: m.state.code, ∃ code, held.instructions = .ok code ∧ good code)
    : Satisfies good { m with frames := [chunk.toList] } := by
  have encoded : ∀ held ∈ chunk :: m.state.code, ∃ code, held.Encodes code ∧ good code := by
    intro held member
    obtain ⟨code, decodes, holds⟩ := each held member
    exact ⟨code, Chunk.encodes_of_instructions decodes, holds⟩
  obtain ⟨⟨code, encodes, holds⟩, values⟩ := List.forall_mem_cons.mp encoded
  have inside {v : Value} (held : v ∈ m.store.values.toList ++ m.stack) {chunk : Chunk}
      (member : chunk ∈ v.code)
      : chunk ∈ m.state.code :=
    List.mem_flatMap.mpr ⟨v, held, member⟩
  refine ⟨⟨?_, ?_⟩, ?_⟩
  · intro id v found chunk member
    have slot : v ∈ m.store.values.toList := Array.mem_toList_iff.mpr (Array.mem_of_getElem? found)
    exact values chunk (inside (List.mem_append_left _ slot) member)
  · intro v pushed chunk member
    exact values chunk (inside (List.mem_append_right _ pushed) member)
  · intro frame member
    rw [List.mem_singleton.mp member]
    exact ⟨code, encodes.bytes, encodes.fits, holds⟩

end Satisfies

-----------------------------------------------------------------------------------------
-- Code made of given instructions
-----------------------------------------------------------------------------------------

/-- (FrameOf good frame) holds if the code left to a call is made of good instructions. -/
def FrameOf (good : Instruction → Prop) (frame : List UInt8) : Prop :=
  ∃ code, frame = encode code ∧ ∀ i ∈ code, i.id < idLimit ∧ good i

/-- (m.MadeOf good) holds if all code of a machine is made of good instructions: that in the store
and on the stack, and what is left to each active call.
-/
structure MadeOf (good : Instruction → Prop) (m : Machine) : Prop where
  values : m.state.Every (Value.MadeOf good)
  frames : ∀ frame ∈ m.frames, FrameOf good frame

theorem frameOf_toList {good : Instruction → Prop} {chunk : Chunk} (made : chunk.MadeOf good)
    : FrameOf good chunk.toList := by
  obtain ⟨code, encodes, each⟩ := made
  exact ⟨code, encodes.bytes, fun i member => ⟨encodes.fits i member, each i member⟩⟩

variable {good : Instruction → Prop} {m : Machine} {i : Instruction}

/-- Code is made of good instructions if this is so of each of them. -/
theorem madeOf_iff_satisfies
    : m.MadeOf good ↔ m.Satisfies fun code => ∀ i ∈ code, good i := by
  constructor
  · rintro ⟨values, frames⟩
    refine ⟨values, ?_⟩
    intro frame member
    obtain ⟨code, bytes, each⟩ := frames frame member
    exact ⟨code, bytes, fun i inside => (each i inside).1, fun i inside => (each i inside).2⟩
  · rintro ⟨values, frames⟩
    refine ⟨values, ?_⟩
    intro frame member
    obtain ⟨code, bytes, fits, each⟩ := frames frame member
    exact ⟨code, bytes, fun i inside => ⟨fits i inside, each i inside⟩⟩

theorem MadeOf.instruction (made : m.MadeOf good) (known : m.instruction? = some i)
    : good i := by
  rw [instruction?, Option.map_eq_some_iff] at known
  obtain ⟨⟨_, left⟩, fetched, rfl⟩ := known
  obtain ⟨code, _, _, _, _, each⟩ := (madeOf_iff_satisfies.mp made).fetch? fetched
  exact each _ (by simp)

/-- All code of a machine is made of the same instructions at each moment of a run. -/
theorem MadeOf.after {start : Machine} (made : start.MadeOf good) {steps : Nat}
    (reached : start.after steps = some m)
    : m.MadeOf good := by
  have suffix {i : Instruction} {code : List Instruction} (each : ∀ j ∈ i :: code, good j)
      : ∀ j ∈ code, good j :=
    (List.forall_mem_cons.mp each).2
  exact madeOf_iff_satisfies.mpr ((madeOf_iff_satisfies.mp made).after suffix reached)

/-- A slot that no good instruction assigns to keeps its value throughout a run. -/
theorem MadeOf.get?_after {start : Machine} (made : start.MadeOf good) {id : Nat}
    (never : ¬good ⟨.assign, id⟩) {steps : Nat} (reached : start.after steps = some m)
    : m.store.get? id = start.store.get? id := by
  refine get?_of_after reached ?_
  rintro ⟨_, moment, _, _, there, assigns, _⟩
  exact never ((made.after there).instruction assigns)

end Machine

end StackText
