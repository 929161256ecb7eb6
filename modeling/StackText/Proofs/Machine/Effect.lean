import StackText.Machine.Basic
import StackText.Proofs.Code.Encoding

/-! What an instruction does apart from the calls that are active: it leads to a new state, stops
the run, or asks for a call. A step of the machine is that effect beneath the active calls.
-/

namespace StackText

/-- What instructions work on: all of a machine but its calls. -/
structure State where
  store : Store
  stack : List Value
  console : Console
  serial : Nat

/-- All of a machine but its calls. -/
def Machine.state (m : Machine) : State := ⟨m.store, m.stack, m.console, m.serial⟩

/-- What an instruction leads to. -/
inductive Effect where
  | next (s : State)
  | stop (why : Stop) (s : State)
  | call (f : Function)

namespace State

/-- The machine in a state with the given code left to each active call, the innermost first. -/
def calling (s : State) (frames : List (List Instruction)) (limit : Nat) : Machine :=
  ⟨s.store, s.stack, frames.map encode, s.console, s.serial, limit⟩

/-- The name of a slot in messages. -/
def slotName (s : State) (id : Nat) : String := (s.store.name? id).getD s!"#{id}"

/-- A builtin replaces its operands by its result, if it has one. -/
def perform (s : State) (b : Builtin) : Effect :=
  match b.run s.serial (s.stack.take b.arity).reverse s.console with
  | (.ok result, console) =>
      .next ⟨s.store, result.toList ++ s.stack.drop b.arity, console, s.serial + 1⟩
  | (.error why, console) => .stop why { s with console }

/-- What an instruction does in a state. -/
def effect (s : State) : Instruction → Effect
  | ⟨.load, id⟩ =>
      match s.store.get? id with
      | some v => .next { s with stack := v :: s.stack }
      | none => .stop (.fault (.unallocated id)) s
  | ⟨.apply, id⟩ =>
      match s.store.get? id with
      | some (.func f) => .call f
      | some (.builtin b) => s.perform b
      | some v => .stop (.fault (.notApplicable (s.slotName id) v.type)) s
      | none => .stop (.fault (.unallocated id)) s
  | ⟨.assign, id⟩ =>
      match s.stack with
      | [] => .stop (.fault (.nothingToAssign (s.slotName id))) s
      | v :: stack =>
          if id < s.store.size then .next { s with store := s.store.set id v, stack }
          else .stop (.fault (.unallocated id)) { s with stack }

-----------------------------------------------------------------------------------------
-- What an effect can be
-----------------------------------------------------------------------------------------

/-- A builtin that succeeds leads to its result in place of its operands. -/
theorem perform_next {s next : State} {b : Builtin} (performed : s.perform b = .next next)
    : ∃ result console,
        b.run s.serial (s.stack.take b.arity).reverse s.console = (.ok result, console)
        ∧ next = ⟨s.store, result.toList ++ s.stack.drop b.arity, console, s.serial + 1⟩ := by
  rw [perform] at performed
  split at performed
  · next result console ran => cases performed; exact ⟨result, console, ran, rfl⟩
  · cases performed

theorem perform_stop {s last : State} {b : Builtin} {why : Stop}
    (performed : s.perform b = .stop why last)
    : ∃ console, last = { s with console } := by
  rw [perform] at performed
  split at performed
  · cases performed
  · next console _ => cases performed; exact ⟨console, rfl⟩

theorem perform_ne_call {s : State} {b : Builtin} {f : Function}
    : s.perform b ≠ .call f := by
  rw [perform]
  split <;> simp

/-- All that an instruction can do without stopping or calling: push the value of a slot, pop a
value into a slot, or run a builtin.
-/
theorem effect_next {s next : State} {i : Instruction} (effect : s.effect i = .next next)
    : (∃ v, i.op = .load ∧ s.store.get? i.id = some v
        ∧ next = { s with stack := v :: s.stack })
      ∨ (∃ v stack, i.op = .assign ∧ s.stack = v :: stack ∧ i.id < s.store.size
          ∧ next = { s with store := s.store.set i.id v, stack })
      ∨ ∃ b result console, i.op = .apply ∧ s.store.get? i.id = some (.builtin b)
          ∧ b.run s.serial (s.stack.take b.arity).reverse s.console = (.ok result, console)
          ∧ next = ⟨s.store, result.toList ++ s.stack.drop b.arity, console, s.serial + 1⟩ := by
  obtain ⟨op, id⟩ := i
  cases op with
  | load =>
      simp only [State.effect] at effect
      split at effect
      · next v found => cases effect; exact .inl ⟨v, rfl, found, rfl⟩
      · cases effect
  | assign =>
      simp only [State.effect] at effect
      split at effect
      · cases effect
      · next v stack top =>
          split at effect
          · next bound => cases effect; exact .inr (.inl ⟨v, stack, rfl, top, bound, rfl⟩)
          · cases effect
  | apply =>
      simp only [State.effect] at effect
      split at effect
      · cases effect
      · next b found =>
          obtain ⟨result, console, ran, rfl⟩ := perform_next effect
          exact .inr (.inr ⟨b, result, console, rfl, found, ran, rfl⟩)
      · cases effect
      · cases effect

/-- An instruction that stops the run leaves the store as it is, and at most a value of the stack
is gone.
-/
theorem effect_stop {s last : State} {i : Instruction} {why : Stop}
    (effect : s.effect i = .stop why last)
    : last.store = s.store ∧ (last.stack = s.stack ∨ last.stack = s.stack.tail) := by
  obtain ⟨op, id⟩ := i
  cases op with
  | load =>
      simp only [State.effect] at effect
      split at effect
      · cases effect
      · cases effect; exact ⟨rfl, .inl rfl⟩
  | assign =>
      simp only [State.effect] at effect
      split at effect
      · cases effect; exact ⟨rfl, .inl rfl⟩
      · next v stack top =>
          split at effect
          · cases effect
          · cases effect; exact ⟨rfl, .inr (by rw [top]; rfl)⟩
  | apply =>
      simp only [State.effect] at effect
      split at effect
      · cases effect
      · obtain ⟨console, rfl⟩ := perform_stop effect
        exact ⟨rfl, .inl rfl⟩
      · cases effect; exact ⟨rfl, .inl rfl⟩
      · cases effect; exact ⟨rfl, .inl rfl⟩

/-- Only a function in the slot of the instruction is called. -/
theorem effect_call {s : State} {i : Instruction} {f : Function} (effect : s.effect i = .call f)
    : i.op = .apply ∧ s.store.get? i.id = some (.func f) := by
  obtain ⟨op, id⟩ := i
  cases op with
  | load =>
      simp only [State.effect] at effect
      split at effect <;> cases effect
  | assign =>
      simp only [State.effect] at effect
      split at effect
      · cases effect
      · split at effect <;> cases effect
  | apply =>
      simp only [State.effect] at effect
      split at effect
      · next found => cases effect; exact ⟨rfl, found⟩
      · exact absurd effect perform_ne_call
      · cases effect
      · cases effect

end State

-----------------------------------------------------------------------------------------
-- Instructions of the machine
-----------------------------------------------------------------------------------------

namespace Machine

/-- The machine in another state, with the same calls active. -/
def withState (m : Machine) (s : State) : Machine :=
  { m with store := s.store, stack := s.stack, console := s.console, serial := s.serial }

/-- What the effect of an instruction comes to beneath the active calls. -/
def proceed (m : Machine) : Effect → Progress
  | .next s => .running (m.withState s)
  | .stop why s => .stopped why (m.withState s)
  | .call f => m.call f

theorem perform_eq (m : Machine) (b : Builtin)
    : m.perform b = m.proceed (m.state.perform b) := by
  simp only [Machine.perform, State.perform, state]
  generalize b.run m.serial (m.stack.take b.arity).reverse m.console = ran
  obtain ⟨result, console⟩ := ran
  cases result <;> rfl

/-- Carrying out an instruction is its effect beneath the active calls. -/
theorem execute_eq (m : Machine) (i : Instruction)
    : m.execute i = m.proceed (m.state.effect i) := by
  obtain ⟨op, id⟩ := i
  cases op with
  | load =>
      simp only [execute, load, State.effect, state]
      cases m.store.get? id <;> rfl
  | assign =>
      obtain ⟨store, stack, frames, console, serial, limit⟩ := m
      cases stack with
      | nil => rfl
      | cons v stack =>
          show (if id < store.size then _ else _) = proceed _ (if id < store.size then _ else _)
          split <;> rfl
  | apply =>
      simp only [execute, apply, State.effect]
      rw [show m.state.store = m.store from rfl]
      cases m.store.get? id with
      | none => rfl
      | some v =>
          cases v with
          | builtin b => exact perform_eq m b
          | _ => rfl

end Machine

-----------------------------------------------------------------------------------------
-- Steps of the machine
-----------------------------------------------------------------------------------------

namespace State

/-- A machine that runs some code starts with one call active. -/
theorem runChunk_eq {chunk : Chunk} {code : List Instruction} (encodes : chunk.Encodes code)
    (fuel : Nat) (m : Machine)
    : m.runChunk fuel chunk = (m.state.calling [code] m.depthLimit).run fuel := by
  rw [Machine.runChunk, encodes.bytes]
  rfl

/-- What an effect comes to beneath the active calls. -/
def proceed (s : State) (frames : List (List Instruction)) (limit : Nat) : Effect → Progress
  | .next next => .running (next.calling frames limit)
  | .stop why last => .stopped why (last.calling frames limit)
  | .call f => (s.calling frames limit).call f

/-- An instruction works beneath the active calls, unless it asks for a call. -/
theorem execute_calling (s : State) (frames : List (List Instruction)) (limit : Nat)
    (i : Instruction)
    : (s.calling frames limit).execute i = s.proceed frames limit (s.effect i) := by
  rw [Machine.execute_eq]
  show Machine.proceed _ (s.effect i) = _
  cases s.effect i <;> rfl

/-- The machine takes the next instruction of the innermost call from its bytes. -/
theorem step_instruction (s : State) {i : Instruction} (fits : i.id < idLimit)
    (code : List Instruction) (callers : List (List Instruction)) (limit : Nat)
    : (s.calling ((i :: code) :: callers) limit).step
      = s.proceed (code :: callers) limit (s.effect i) := by
  rw [← execute_calling]
  simp only [Machine.step, calling, List.map_cons, encode_cons, Instruction.bytes, idBytes,
    List.cons_append, List.nil_append, Opcode.ofByte?_byte, idOfBytes_idBytes fits]

theorem step_return (s : State) (callers : List (List Instruction)) (limit : Nat)
    : (s.calling ([] :: callers) limit).step = .running (s.calling callers limit) :=
  rfl

theorem step_finished (s : State) (limit : Nat)
    : (s.calling [] limit).step = .finished (s.calling [] limit) :=
  rfl

/-- A call from a caller with no code left takes the caller's place. -/
theorem call_last (s : State) {f : Function} {body : List Instruction}
    (encodes : f.chunk.Encodes body) {callers : List (List Instruction)} {limit : Nat}
    (room : callers.length < limit)
    : (s.calling ([] :: callers) limit).call f = .running (s.calling (body :: callers) limit) := by
  have inside : ¬limit ≤ (callers.map encode).length := by simpa using room
  simp only [Machine.call, calling, List.map_cons, encode_nil, if_neg inside, encodes.bytes]

/-- Any other call comes on top of the caller, if that many may be active. -/
theorem call_inner (s : State) {f : Function} {body code : List Instruction}
    (encodes : f.chunk.Encodes body) (left : code ≠ []) {callers : List (List Instruction)}
    {limit : Nat} (room : callers.length + 1 < limit)
    : (s.calling (code :: callers) limit).call f
      = .running (s.calling (body :: code :: callers) limit) := by
  have inside : ¬limit ≤ (encode code :: callers.map encode).length := by simpa using room
  have nonempty : encode code ≠ [] := by simpa using left
  simp only [Machine.call, calling, List.map_cons]
  split
  · next same => exact absurd (List.cons.inj same).1 nonempty
  · rw [if_neg inside, encodes.bytes]

/-- The limit of active calls stops a call that would come on top. -/
theorem call_tooDeep (s : State) (f : Function) {code : List Instruction} (left : code ≠ [])
    {callers : List (List Instruction)} {limit : Nat} (full : limit = callers.length + 1)
    : (s.calling (code :: callers) limit).call f
      = .stopped (.fault (.callDepth limit)) (s.calling (code :: callers) limit) := by
  have outside : limit ≤ (encode code :: callers.map encode).length := by simp [full]
  have nonempty : encode code ≠ [] := by simpa using left
  simp only [Machine.call, calling, List.map_cons]
  split
  · next same => exact absurd (List.cons.inj same).1 nonempty
  · rw [if_pos outside]

end State

end StackText
