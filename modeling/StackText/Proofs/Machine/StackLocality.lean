import Mathlib
import StackText.Proofs.Machine.Moments
import StackText.Reader.Basic

/-! Code works on the top of the stack only. What lies below the operands that a run uses stays
where it is and has no influence on the run, as long as the run does not miss an operand.
-/

namespace StackText

/-- (why.underflows) holds if a run stops because the stack holds too few operands. -/
def Stop.underflows : Stop → Bool
  | .fault cause => cause.kind = .stackUnderflow
  | _ => false

/-- A builtin with too few operands reports how many there are. -/
theorem Builtin.run_of_length_lt {b : Builtin} {operands : List Value}
    (missing : operands.length < b.arity) (serial : Nat) (console : Console)
    : b.run serial operands console
      = (.error (.fault (.tooFewOperands b operands.length)), console) := by
  match operands with
  | [] => cases b <;> first | rfl | cases missing
  | [v] => cases b <;> first | rfl | simp [arity] at missing
  | _ :: _ :: rest => cases b <;> simp [arity] at missing

-----------------------------------------------------------------------------------------
-- Further operands below the stack
-----------------------------------------------------------------------------------------

/-- The state with further operands below its stack. -/
def State.above (below : List Value) (s : State) : State := { s with stack := s.stack ++ below }

/-- The effect with further operands below the stack. -/
def Effect.above (below : List Value) : Effect → Effect
  | .next s => .next (s.above below)
  | .stop why s => .stop why (s.above below)
  | .call f => .call f

/-- The machine with further operands below its stack. -/
def Machine.above (below : List Value) (m : Machine) : Machine :=
  { m with stack := m.stack ++ below }

/-- The progress with further operands below the stack. -/
def Progress.above (below : List Value) : Progress → Progress
  | .running m => .running (m.above below)
  | .finished m => .finished (m.above below)
  | .stopped why m => .stopped why (m.above below)

/-- (effect.Suffices) holds unless an instruction stops for want of operands. -/
def Effect.Suffices (effect : Effect) : Prop :=
  ∀ why last, effect = .stop why last → why.underflows = false

namespace State

variable {s : State}

/-- A builtin that does not miss an operand takes its operands from the top. -/
theorem perform_above {b : Builtin} (enough : (s.perform b).Suffices) (below : List Value)
    : (s.above below).perform b = (s.perform b).above below := by
  by_cases present : b.arity ≤ s.stack.length
  · simp only [perform, above, List.take_append_of_le_length present,
      List.drop_append_of_le_length present]
    generalize b.run s.serial (s.stack.take b.arity).reverse s.console = ran
    obtain ⟨result, console⟩ := ran
    cases result with
    | ok result => simp [Effect.above, above]
    | error why => rfl
  · -- All of the stack is taken and does not suffice.
    have missing : (s.stack.take b.arity).reverse.length < b.arity := by
      simp only [List.length_reverse, List.length_take]
      omega
    have stops := Builtin.run_of_length_lt missing s.serial s.console
    have underflow := enough _ { s with console := s.console } (by rw [perform, stops])
    cases underflow

/-- An instruction that does not miss an operand does the same above further operands. -/
theorem effect_above {i : Instruction} (enough : (s.effect i).Suffices) (below : List Value)
    : (s.above below).effect i = (s.effect i).above below := by
  obtain ⟨op, id⟩ := i
  have name : (s.above below).slotName id = s.slotName id := rfl
  cases op with
  | load =>
      simp only [effect, above]
      cases s.store.get? id <;> rfl
  | apply =>
      have slot : (s.above below).store = s.store := rfl
      simp only [effect, name, slot] at enough ⊢
      cases found : s.store.get? id with
      | none => rfl
      | some v =>
          rw [found] at enough
          cases v with
          | builtin b => exact perform_above enough below
          | _ => rfl
  | assign =>
      obtain ⟨store, stack, console, serial⟩ := s
      cases stack with
      | nil => cases enough _ _ rfl
      | cons v stack =>
          show (if id < store.size then _ else _)
            = Effect.above below (if id < store.size then _ else _)
          split <;> rfl

end State

-----------------------------------------------------------------------------------------
-- Steps and runs
-----------------------------------------------------------------------------------------

namespace Machine

theorem call_above (m : Machine) (f : Function) (below : List Value)
    : (m.above below).call f = (m.call f).above below := by
  have again := (m.above below).call_eq_if f
  rw [show (m.above below).frames = m.frames from rfl,
    show (m.above below).depthLimit = m.depthLimit from rfl] at again
  rw [again, call_eq_if]
  split <;> rfl

theorem proceed_above (m : Machine) (effect : Effect) (below : List Value)
    : (m.above below).proceed (effect.above below) = (m.proceed effect).above below := by
  cases effect with
  | next s | stop why s => rfl
  | call f => exact call_above m f below

/-- A step that does not miss an operand is the same above further operands. -/
theorem step_above {m : Machine}
    (enough : ∀ why last, m.step = .stopped why last → why.underflows = false)
    (below : List Value)
    : (m.above below).step = m.step.above below := by
  cases fetched : fetch? m.frames with
  | none =>
      -- No instruction is carried out, so the stack is not looked at.
      rw [step, step, show (m.above below).frames = m.frames from rfl]
      split
      · rfl
      · rfl
      · next op b₃ b₂ b₁ b₀ code callers whole =>
          rw [whole, fetch?, Option.map_eq_none_iff] at fetched
          simp only [fetched]
          rfl
      · rfl
  | some taken =>
      obtain ⟨i, frames⟩ := taken
      have again : fetch? (m.above below).frames = some (i, frames) := fetched
      rw [step_of_fetch? fetched] at enough ⊢
      have suffices' : (m.state.effect i).Suffices := by
        intro why last stops
        rw [stops] at enough
        exact enough why _ rfl
      rw [step_of_fetch? again, ← proceed_above]
      exact congrArg _ (State.effect_above suffices' below)

/-- A run that does not miss an operand is the same above further operands, by induction on its
steps.
-/
theorem run_above {m : Machine} {fuel : Nat} {ending : Ending} (ran : m.run fuel = some ending)
    (enough : ∀ why, ending.stop = some why → why.underflows = false) (below : List Value)
    : (m.above below).run fuel = some ⟨ending.stop, ending.machine.above below⟩ := by
  induction fuel generalizing m with
  | zero => cases ran
  | succ fuel ih =>
      rw [run] at ran
      have same : (m.above below).step = m.step.above below := by
        refine step_above ?_ below
        intro why last stops
        rw [stops] at ran
        cases ran
        exact enough why rfl
      rw [run, same]
      cases step : m.step with
      | running next => rw [step] at ran; exact ih ran
      | finished last => rw [step] at ran; cases ran; rfl
      | stopped why last => rw [step] at ran; cases ran; rfl

/-- Running code is local to the top of the stack. From any store, with any input and any operands,
a run that ends, in whatever way but for want of an operand, takes the same steps with any further
operands below: it ends in the same way, with the same store, remaining input and output, and with
the further operands below the stack it leaves. Witness: a builtin that finds its operands takes
them from the top, and no other instruction looks further than the last one.
-/
theorem runChunk_above_operands {m : Machine} {chunk : Chunk} {fuel : Nat} {ending : Ending}
    (ran : m.runChunk fuel chunk = some ending)
    (enough : ∀ fault, ending.stop = some (.fault fault) → fault.kind ≠ .stackUnderflow)
    (below : List Value)
    : Machine.runChunk fuel { m with stack := m.stack ++ below } chunk
      = some ⟨ending.stop, { ending.machine with stack := ending.machine.stack ++ below }⟩ := by
  refine run_above ran ?_ below
  intro why stopped
  cases why with
  | fault fault => simpa [Stop.underflows] using enough fault stopped
  | _ => rfl

/-- A word that gives itself another meaning, called twice above an operand that it leaves alone. -/
theorem runChunk_above_redefined_word
    : let given := Reader.fresh.compile .withBuiltins "( ( 2 * ) $=f 1 + ) $=f f f 0 /".toList true
      ∃ chunk ending,
        given.result = .ok chunk
        ∧ Machine.runChunk 40 { store := given.store, stack := [.int 5] } chunk = some ending
        ∧ ending.stop = some (.fault .divisionByZero)
        ∧ ∃ above,
            Machine.runChunk 40 { store := given.store, stack := [.int 5, .str "below"] } chunk
              = some above
            ∧ above.stop = some (.fault .divisionByZero)
            ∧ above.machine.stack = [.int 0, .int 12, .str "below"] := by
  have ends : (let given :=
        Reader.fresh.compile .withBuiltins "( ( 2 * ) $=f 1 + ) $=f f f 0 /".toList true
      match given.result with
      | .ok chunk =>
          (Machine.runChunk 40 { store := given.store, stack := [.int 5] } chunk).map fun ending =>
            (ending.stop, ending.machine.stack)
      | .error _ => none) = some (some (.fault .divisionByZero), [.int 0, .int 12]) := by
    cbv
  intro given
  change (match given.result with | .ok chunk => _ | .error _ => _) = _ at ends
  cases result : given.result with
  | error fault => rw [result] at ends; cases ends
  | ok chunk =>
      rw [result] at ends
      obtain ⟨ending, ran, same⟩ := Option.map_eq_some_iff.mp ends
      obtain ⟨stopped, left⟩ := Prod.mk.inj same
      have above := runChunk_above_operands ran (by rw [stopped]; simp [Fault.kind]) [.str "below"]
      refine ⟨chunk, ending, rfl, ran, stopped, _, above, stopped, ?_⟩
      rw [left]
      rfl

end Machine

end StackText
