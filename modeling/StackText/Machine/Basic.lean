import StackText.Machine.Apply
import StackText.Store.Basic

/-! The machine that runs code. Each active call is a frame that holds the code it has left; a
call from a frame with no code left replaces that frame.
-/

namespace StackText

/-- A machine between two instructions. -/
structure Machine where
  store : Store
  /-- The operands, the last pushed first. -/
  stack : List Value := []
  /-- The code left to each active call, the innermost first. -/
  frames : List (List UInt8) := []
  console : Console := {}
  /-- The serial number of the next value that gets one. -/
  serial : Nat := 0
  /-- The most frames that may be active at once. -/
  depthLimit : Nat := 10000

/-- What one step of a machine leads to. -/
inductive Progress where
  | running (m : Machine)
  | finished (m : Machine)
  | stopped (stop : Stop) (m : Machine)

namespace Machine

/-- The name of a slot in messages; an unnamed slot shows its id. -/
def slotName (m : Machine) (id : Nat) : String :=
  (m.store.name? id).getD s!"#{id}"

/-- The last value pushed, or nil. -/
def top (m : Machine) : Value := m.stack.headD .nil

/-- Pushes a value. -/
def push (m : Machine) (v : Value) : Machine := { m with stack := v :: m.stack }

/-- Takes the last value pushed. -/
def pop (m : Machine) : Except Fault (Value × Machine) :=
  match m.stack with
  | [] => .error .emptyStack
  | v :: stack => .ok (v, { m with stack })

/-- Pushes the value of a slot. -/
def load (m : Machine) (id : Nat) : Progress :=
  match m.store.get? id with
  | some v => .running (m.push v)
  | none => .stopped (.fault (.unallocated id)) m

/-- Pops a value into a slot. The value is gone even if there is no such slot. -/
def assign (m : Machine) (id : Nat) : Progress :=
  match m with
  | ⟨store, v :: stack, frames, console, serial, depthLimit⟩ =>
      if id < store.size then
        .running ⟨store.set id v, stack, frames, console, serial, depthLimit⟩
      else
        .stopped (.fault (.unallocated id)) ⟨store, stack, frames, console, serial, depthLimit⟩
  | m => .stopped (.fault (.nothingToAssign (m.slotName id))) m

/-- Starts a call. The frame of a caller that has no code left makes room first. -/
def call (m : Machine) (f : Function) : Progress :=
  let frames :=
    match m.frames with
    | [] :: callers => callers
    | frames => frames
  if m.depthLimit ≤ frames.length then .stopped (.fault (.callDepth m.depthLimit)) m
  else .running { m with frames := f.chunk.toList :: frames }

/-- Runs a builtin. Its operands leave the stack only when it succeeds. -/
def perform (m : Machine) (b : Builtin) : Progress :=
  match m with
  | ⟨store, stack, frames, console, serial, depthLimit⟩ =>
      match b.run serial (stack.take b.arity).reverse console with
      | (.ok result, console) =>
          let stack := result.toList ++ stack.drop b.arity
          .running ⟨store, stack, frames, console, serial + 1, depthLimit⟩
      | (.error stop, console) =>
          .stopped stop ⟨store, stack, frames, console, serial, depthLimit⟩

/-- Applies the value of a slot. -/
def apply (m : Machine) (id : Nat) : Progress :=
  match m.store.get? id with
  | some (.func f) => m.call f
  | some (.builtin b) => m.perform b
  | some v => .stopped (.fault (.notApplicable (m.slotName id) v.type)) m
  | none => .stopped (.fault (.unallocated id)) m

/-- Carries out an instruction that has been taken from its frame. -/
def execute (m : Machine) : Instruction → Progress
  | ⟨.load, id⟩ => m.load id
  | ⟨.apply, id⟩ => m.apply id
  | ⟨.assign, id⟩ => m.assign id

/-- One step: the innermost call ends or runs an instruction. The id of an instruction is read
before its opcode is looked at.
-/
def step (m : Machine) : Progress :=
  match m.frames with
  | [] => .finished m
  | [] :: callers => .running { m with frames := callers }
  | (op :: b₃ :: b₂ :: b₁ :: b₀ :: code) :: callers =>
      let m := { m with frames := code :: callers }
      match Opcode.ofByte? op with
      | some op => m.execute ⟨op, idOfBytes b₃ b₂ b₁ b₀⟩
      | none => .stopped (.fault (.unknownOpcode op)) m
  | _ :: _ => .stopped .cutShort m

/-- How a run ended: whether something stopped it, and the machine with no call active. -/
structure Ending where
  stop : Option Stop
  machine : Machine

/-- Runs until all calls have ended or something stops them, for at most (fuel) steps. None means
that the steps did not suffice.
-/
def run : Nat → Machine → Option Ending
  | 0, _ => none
  | fuel + 1, m =>
      match m.step with
      | .running m => m.run fuel
      | .finished m => some ⟨none, m⟩
      | .stopped stop m => some ⟨some stop, { m with frames := [] }⟩

/-- Runs a piece of code as the outermost call. -/
def runChunk (fuel : Nat) (m : Machine) (chunk : Chunk) : Option Ending :=
  run fuel { m with frames := [chunk.toList] }

end Machine

end StackText
