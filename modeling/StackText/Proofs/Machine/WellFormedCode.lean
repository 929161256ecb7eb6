import StackText.Proofs.Machine.ClosedState

/-! Well-formed code, told from its bytes, and a machine at any moment of a run. Each step leaves
all code of the machine well formed, and such code never stops a run by a fault of its own.
-/

namespace StackText

-----------------------------------------------------------------------------------------
-- Well-formed bytes
-----------------------------------------------------------------------------------------

/-- (store.Admits code) holds of bytes that can run over the store: they come in groups of five,
each with a known opcode and the id of a slot, and a slot that is applied or assigned to is named.
-/
structure Store.Admits (store : Store) (code : List UInt8) : Prop where
  whole : code.length % 5 = 0
  group
    : ∀ place byte b₃ b₂ b₁ b₀ rest,
        code.drop (5 * place) = byte :: b₃ :: b₂ :: b₁ :: b₀ :: rest
        → idOfBytes b₃ b₂ b₁ b₀ < store.size
          ∧ ∃ op,
              Opcode.ofByte? byte = some op
              ∧ (op ≠ .load → ∃ name, store.name? (idOfBytes b₃ b₂ b₁ b₀) = some name)

theorem Store.name?_eq_some_iff {store : Store} {id : Nat} {name : String}
    : store.name? id = some name ↔ store.symbols.names[id]? = some (some name) := by
  rw [Store.name?, SymbolTable.name?_natCast, Option.join_eq_some_iff]

theorem Instruction.bytes_eq (i : Instruction)
    : i.bytes = [
        i.op.byte, (i.id / 0x1000000).toUInt8, (i.id / 0x10000).toUInt8, (i.id / 0x100).toUInt8,
        i.id.toUInt8] :=
  rfl

/-- Instructions on slots of the store are well formed, by induction on them. -/
theorem Store.admits_encode {store : Store} {code : List Instruction}
    (fits : ∀ i ∈ code, i.id < idLimit) (closed : ∀ i ∈ code, i.Closed store.symbols)
    : store.Admits (encode code) := by
  induction code with
  | nil => exact ⟨rfl, by simp⟩
  | cons i code ih =>
      obtain ⟨fitsHere, fitsLater⟩ := List.forall_mem_cons.mp fits
      obtain ⟨here, later⟩ := List.forall_mem_cons.mp closed
      obtain ⟨whole, group⟩ := ih fitsLater later
      refine ⟨by simp [Instruction.bytes_eq]; omega, ?_⟩
      intro place byte b₃ b₂ b₁ b₀ rest found
      cases place with
      | zero =>
          rw [Nat.mul_zero, List.drop_zero, encode_cons, Instruction.bytes_eq] at found
          simp only [List.cons_append, List.nil_append, List.cons.injEq] at found
          obtain ⟨rfl, rfl, rfl, rfl, rfl, _⟩ := found
          rw [idOfBytes_idBytes fitsHere]
          refine ⟨Nat.lt_of_lt_of_eq here.given store.covered.symm, i.op, by simp, ?_⟩
          intro refers
          obtain ⟨name, known⟩ := here.named refers
          exact ⟨name, Store.name?_eq_some_iff.mpr known⟩
      | succ place =>
          refine group place byte b₃ b₂ b₁ b₀ rest ?_
          rw [← found, encode_cons, Nat.mul_succ, Nat.add_comm, ← List.drop_drop]
          rfl

/-- Well-formed bytes are those of instructions on slots of the store, by induction on the number of
groups.
-/
theorem Store.Admits.encoded {store : Store} {bytes : List UInt8}
    (admits : store.Admits bytes)
    : ∃ code,
        bytes = encode code
        ∧ (∀ i ∈ code, i.id < idLimit)
        ∧ ∀ i ∈ code, i.Closed store.symbols := by
  obtain ⟨whole, group⟩ := admits
  induction groups : bytes.length / 5 generalizing bytes with
  | zero =>
      have empty : bytes = [] := List.length_eq_zero_iff.mp (by omega)
      exact ⟨[], empty, by simp, by simp⟩
  | succ n ih =>
      match bytes with
      | byte :: b₃ :: b₂ :: b₁ :: b₀ :: rest =>
          simp only [List.length_cons] at whole groups
          obtain ⟨bound, op, known, named⟩ := group 0 byte b₃ b₂ b₁ b₀ rest rfl
          have laterGroup : ∀ place byte b₃ b₂ b₁ b₀ more,
              rest.drop (5 * place) = byte :: b₃ :: b₂ :: b₁ :: b₀ :: more → _ :=
            fun place byte b₃ b₂ b₁ b₀ more found =>
              group (place + 1) byte b₃ b₂ b₁ b₀ more (by rw [← found, Nat.mul_succ]; rfl)
          obtain ⟨code, rfl, fits, closed⟩ := ih (by omega) laterGroup (by omega)
          refine ⟨⟨op, idOfBytes b₃ b₂ b₁ b₀⟩ :: code, ?_, ?_, ?_⟩
          · simp [Instruction.bytes, Opcode.byte_of_ofByte? known, idBytes_idOfBytes]
          · exact List.forall_mem_cons.mpr ⟨idOfBytes_lt b₃ b₂ b₁ b₀, fits⟩
          · refine List.forall_mem_cons.mpr ⟨⟨Nat.lt_of_lt_of_eq bound store.covered, ?_⟩, closed⟩
            intro refers
            obtain ⟨name, found⟩ := named refers
            exact ⟨name, Store.name?_eq_some_iff.mp found⟩
      | [] | [_] | [_, _] | [_, _, _] | [_, _, _, _] => simp at groups

/-- Code is closed exactly if its bytes are well formed. -/
theorem Store.admits_iff_closed {store : Store} {chunk : Chunk}
    : store.Admits chunk.toList ↔ chunk.Closed store.symbols := by
  constructor
  · intro admits
    obtain ⟨code, bytes, fits, closed⟩ := admits.encoded
    exact ⟨code, ⟨bytes, fits⟩, closed⟩
  · intro closed
    obtain ⟨code, encodes, closed⟩ := closed
    rw [encodes.bytes]
    exact Store.admits_encode encodes.fits closed

-----------------------------------------------------------------------------------------
-- The code that a state holds
-----------------------------------------------------------------------------------------

/-- The code of all functions in a value, also of those inside pairs. -/
def Value.code : Value → List Chunk
  | .func f => [f.chunk]
  | .pair _ left right => left.code ++ right.code
  | _ => []

/-- The code of all functions in the slots and on the stack. -/
def State.code (s : State) : List Chunk :=
  (s.store.values.toList ++ s.stack).flatMap Value.code

/-- A value is closed exactly if all its code is, by induction on the pairs in it. -/
theorem Value.closed_iff {table : SymbolTable} {v : Value}
    : v.Closed table ↔ ∀ chunk ∈ v.code, chunk.Closed table := by
  induction v with
  | func f => simp [Value.Closed, code]
  | pair serial left right leftIff rightIff =>
      rw [Value.Closed, leftIff, rightIff, code]
      simp only [List.mem_append, or_imp, forall_and]
  | _ => simp [Value.Closed, code]

theorem State.Closed.code {s : State} (closed : s.Closed)
    : ∀ chunk ∈ s.code, chunk.Closed s.store.symbols := by
  intro chunk member
  obtain ⟨v, held, inside⟩ := List.mem_flatMap.mp member
  refine Value.closed_iff.mp ?_ chunk inside
  rcases List.mem_append.mp held with slot | operand
  · obtain ⟨id, bound, rfl⟩ := List.mem_iff_getElem.mp slot
    exact closed.store.values id _ (Array.getElem?_eq_some_iff.mpr ⟨bound, rfl⟩)
  · exact closed.stack v operand

-----------------------------------------------------------------------------------------
-- Stops
-----------------------------------------------------------------------------------------

/-- (why.blamesCode) holds if the code itself is at fault: it ends inside an instruction, or has an
unknown opcode or the id of no slot.
-/
def Stop.blamesCode : Stop → Bool
  | .fault (.unknownOpcode _) | .fault (.unallocated _) | .cutShort => true
  | _ => false

/-- (why.byBuiltin) holds of what builtins stop a run with: faults of their operands, the end of
their input, and an exit.
-/
def Stop.byBuiltin : Stop → Bool
  | .fault (.tooFewOperands ..) | .fault (.notNumbers ..) | .fault (.notPair ..)
  | .fault (.notExitCode _) | .fault .divisionByZero | .fault .remainderByZero
  | .fault (.endOfInput _) | .exit _ | .interrupted | .numeral _ => true
  | _ => false

theorem Stop.not_blamesCode_of_byBuiltin {why : Stop} (builtin : why.byBuiltin = true)
    : why.blamesCode = false := by
  cases why with
  | fault fault =>
      cases fault with
      | unallocated | unknownOpcode => cases builtin
      | _ => rfl
  | cutShort => cases builtin
  | _ => rfl

namespace Builtin

theorem byBuiltin_onInts {b : Builtin} {m n : Int} {fault : Fault}
    (failed : b.onInts m n = .error fault)
    : Stop.byBuiltin (.fault fault) = true := by
  cases b with
  | div | mod =>
      rw [onInts] at failed
      split at failed
      · cases failed; rfl
      · cases failed
  | _ => cases failed; try rfl

theorem byBuiltin_onNumbers {b : Builtin} {l r : Value} {fresh : Identity} {fault : Fault}
    (failed : b.onNumbers l r fresh = .error fault)
    : Stop.byBuiltin (.fault fault) = true := by
  rw [onNumbers] at failed
  split at failed
  · exact byBuiltin_onInts failed
  · cases b <;> cases failed <;> rfl
  · next unfit =>
      cases failed
      rw [operands.eq_def] at unfit
      split at unfit <;> cases unfit
      rfl

theorem byBuiltin_compute {b : Builtin} {serial : Nat} {operands : List Value}
    {fault : Fault} (failed : b.compute serial operands = .error fault)
    : Stop.byBuiltin (.fault fault) = true := by
  rw [compute.eq_def] at failed
  split at failed
  any_goals (cases failed <;> rfl)
  exact byBuiltin_onNumbers failed

/-- A builtin blames its operands or the input, or exits. -/
theorem byBuiltin_run {b : Builtin} {serial : Nat} {operands : List Value}
    {console after : Console} {why : Stop}
    (failed : b.run serial operands console = (.error why, after))
    : why.byBuiltin = true := by
  rw [run.eq_def] at failed
  split at failed
  · cases failed
  · cases failed
  · split at failed
    · cases failed; rfl
    · split at failed
      · cases failed
      · cases failed; rfl
  · split at failed
    · cases failed; split <;> rfl
    · cases failed
  · cases failed; rfl
  · cases failed; rfl
  · split at failed
    · cases failed
    · next computed => cases failed; exact byBuiltin_compute computed

end Builtin

/-- A closed instruction on a closed state never blames the code. -/
theorem Instruction.Closed.not_blamesCode {s last : State} {i : Instruction}
    (instruction : i.Closed s.store.symbols) {why : Stop} (effect : s.effect i = .stop why last)
    : why.blamesCode = false := by
  have bound : i.id < s.store.size :=
    Nat.lt_of_lt_of_eq instruction.given (Store.covered _).symm
  obtain ⟨op, id⟩ := i
  have slot : s.store.get? id = some s.store.values[id] := Array.getElem?_eq_getElem bound
  cases op with
  | load => simp [State.effect, slot] at effect
  | assign =>
      simp only [State.effect] at effect
      split at effect
      · cases effect; rfl
      · rw [if_pos bound] at effect
        cases effect
  | apply =>
      simp only [State.effect, slot] at effect
      split at effect
      · cases effect
      · rw [State.perform] at effect
        split at effect
        · cases effect
        · next failed =>
            cases effect
            exact Stop.not_blamesCode_of_byBuiltin (Builtin.byBuiltin_run failed)
      · cases effect; rfl
      · next missing => cases missing

-----------------------------------------------------------------------------------------
-- A machine at any moment
-----------------------------------------------------------------------------------------

namespace Machine

/-- (m.Closed) holds if the state is closed and the code left to each active call consists of closed
instructions.
-/
structure Closed (m : Machine) : Prop where
  state : m.state.Closed
  frames
    : ∃ frames : List (List Instruction),
        m.frames = frames.map encode
        ∧ ∀ code ∈ frames, ∀ i ∈ code, i.id < idLimit ∧ i.Closed m.store.symbols

/-- A call comes on top of all active calls, or of all but a caller that has no code left. -/
theorem call_eq (m : Machine) (f : Function)
    : ∃ callers,
        callers <:+ m.frames
        ∧ m.call f
          = if m.depthLimit ≤ callers.length then .stopped (.fault (.callDepth m.depthLimit)) m
            else .running { m with frames := f.chunk.toList :: callers } := by
  rw [Machine.call]
  split
  · next callers same => exact ⟨callers, same ▸ List.suffix_cons _ _, rfl⟩
  · exact ⟨m.frames, List.suffix_rfl, rfl⟩

/-- (m.Leads next) holds if the next machine is closed over the symbol table of the first. -/
structure Leads (m next : Machine) : Prop where
  closed : next.Closed
  symbols : next.store.symbols = m.store.symbols

/-- A call of closed code keeps the machine closed, whether or not there is room for it. -/
theorem Closed.call {m : Machine} (closed : m.Closed) {f : Function}
    (code : f.chunk.Closed m.store.symbols)
    : (∃ limit, m.call f = .stopped (.fault (.callDepth limit)) m)
      ∨ ∃ next, m.call f = .running next ∧ m.Leads next := by
  obtain ⟨callers, ⟨gone, whole⟩, called⟩ := m.call_eq f
  rw [called]
  split
  · exact .inl ⟨_, rfl⟩
  · obtain ⟨frames, same, each⟩ := closed.frames
    obtain ⟨body, encodes, instructions⟩ := code
    obtain ⟨dropped, kept, rfl, _, rfl⟩ := List.map_eq_append_iff.mp (same.symm.trans whole.symm)
    refine .inr ⟨_, rfl, ⟨closed.state, body :: kept, by simp [encodes.bytes], ?_⟩, rfl⟩
    refine List.forall_mem_cons.mpr ⟨?_, fun code member => each code (by simp [member])⟩
    exact fun i member => ⟨encodes.fits i member, instructions i member⟩

/-- A step of a closed machine leads to a closed one, and does not blame the code if it is the last.
The cases are those of the innermost call: none, one with no code left, and an instruction with each
of its effects.
-/
theorem Closed.step {m : Machine} (closed : m.Closed)
    : match m.step with
      | .running next | .finished next => m.Leads next
      | .stopped why last => m.Leads last ∧ why.blamesCode = false := by
  obtain ⟨frames, same, each⟩ := closed.frames
  have machine : m = m.state.calling frames m.depthLimit := by
    rw [State.calling, ← same]
    rfl
  cases frames with
  | nil =>
      rw [machine, State.step_finished, ← machine]
      exact ⟨closed, rfl⟩
  | cons top callers =>
      obtain ⟨here, beyond⟩ := List.forall_mem_cons.mp each
      cases top with
      | nil =>
          have step : m.step = .running (m.state.calling callers m.depthLimit) := by
            rw [machine, State.step_return, ← machine]
          rw [step]
          exact ⟨⟨closed.state, callers, rfl, beyond⟩, rfl⟩
      | cons i code =>
          obtain ⟨⟨fits, instruction⟩, left⟩ := List.forall_mem_cons.mp here
          have step : m.step
              = m.state.proceed (code :: callers) m.depthLimit (m.state.effect i) := by
            rw [machine, State.step_instruction _ fits, ← machine]
          have onward : ∀ s : State, s.Closed → s.store.symbols = m.store.symbols
              → m.Leads (s.calling (code :: callers) m.depthLimit) := by
            intro s stateClosed symbols
            refine ⟨⟨stateClosed, code :: callers, rfl, ?_⟩, symbols⟩
            show ∀ c ∈ code :: callers, ∀ i ∈ c, i.id < idLimit ∧ i.Closed s.store.symbols
            rw [symbols]
            exact List.forall_mem_cons.mpr ⟨left, beyond⟩
          rw [step]
          cases effect : m.state.effect i with
          | next s =>
              obtain ⟨stateClosed, symbols⟩ := closed.state.next effect
              exact onward s stateClosed symbols
          | stop why last =>
              obtain ⟨stateClosed, symbols⟩ := closed.state.stop effect
              exact ⟨onward last stateClosed symbols,
                instruction.not_blamesCode effect⟩
          | call f =>
              have caller := onward m.state closed.state rfl
              rcases caller.closed.call (closed.state.call effect) with
                ⟨limit, deep⟩ | ⟨next, called, leads⟩
              · rw [State.proceed, deep]
                exact ⟨caller, rfl⟩
              · rw [State.proceed, called]
                exact ⟨leads.closed, leads.symbols⟩

theorem Closed.running {m next : Machine} (closed : m.Closed) (step : m.step = .running next)
    : m.Leads next := by
  have kept := closed.step
  rw [step] at kept
  exact kept

theorem Closed.stopped {m last : Machine} (closed : m.Closed) {why : Stop}
    (step : m.step = .stopped why last)
    : m.Leads last ∧ why.blamesCode = false := by
  have kept := closed.step
  rw [step] at kept
  exact kept

/-- A run of a closed machine never blames the code, by induction on its steps. -/
theorem Closed.run {m : Machine} (closed : m.Closed) {fuel : Nat} {ending : Ending}
    (ran : m.run fuel = some ending) {why : Stop} (stopped : ending.stop = some why)
    : why.blamesCode = false := by
  induction fuel generalizing m with
  | zero => cases ran
  | succ fuel ih =>
      rw [Machine.run] at ran
      split at ran
      · next next step => exact ih (closed.running step).closed ran
      · cases ran; cases stopped
      · next step => cases ran; cases stopped; exact (closed.stopped step).2

/-- The machine after a number of steps, if its run takes that many. -/
def after : Nat → Machine → Option Machine
  | 0, m => some m
  | steps + 1, m =>
      match m.step with
      | .running next => next.after steps
      | _ => none

/-- A run of a closed machine leads to closed ones only, by induction on its steps. -/
theorem Closed.after {m last : Machine} (closed : m.Closed) {steps : Nat}
    (reached : m.after steps = some last)
    : m.Leads last := by
  induction steps generalizing m with
  | zero => cases reached; exact ⟨closed, rfl⟩
  | succ steps ih =>
      rw [Machine.after] at reached
      split at reached
      · next next step =>
          have first := closed.running step
          have later := ih first.closed reached
          exact ⟨later.closed, later.symbols.trans first.symbols⟩
      · cases reached

/-- Closed code may start on a closed state. -/
theorem closed_start {m : Machine} (state : m.state.Closed) {chunk : Chunk}
    (code : chunk.Closed m.store.symbols)
    : Closed { m with frames := [chunk.toList] } := by
  obtain ⟨instructions, encodes, closed⟩ := code
  refine ⟨state, [instructions], by simp [encodes.bytes], ?_⟩
  intro code member i inside
  cases List.mem_singleton.mp member
  exact ⟨encodes.fits i inside, closed i inside⟩

/-- The code left to the active calls is well formed. -/
theorem Closed.admits {m : Machine} (closed : m.Closed)
    : ∀ frame ∈ m.frames, m.store.Admits frame := by
  obtain ⟨frames, same, each⟩ := closed.frames
  intro frame member
  rw [same] at member
  obtain ⟨code, inside, rfl⟩ := List.mem_map.mp member
  exact Store.admits_encode (fun i held => (each code inside i held).1)
    fun i held => (each code inside i held).2

end Machine

end StackText
