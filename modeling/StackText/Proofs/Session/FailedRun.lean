import Mathlib
import StackText.Proofs.Machine.FailingInstruction
import StackText.Proofs.Session.Reachable

/-! A run that fails leaves what there was before the instruction that failed, however many calls
were active, and a machine that is ready for the next run.
-/

namespace StackText

/-- The last moment of a run of a closed machine that is stopped: an instruction fails there, and
the machine that is left has its state but for input, and no active call.
-/
theorem Machine.Closed.last_moment {m : Machine} (closed : m.Closed) {fuel : Nat}
    {ending : Machine.Ending} (ran : m.run fuel = some ending) {why : Stop}
    (stopped : ending.stop = some why)
    : ∃ steps before i last,
        steps < fuel
        ∧ m.after steps = some before
        ∧ before.instruction? = some i
        ∧ before.step = .stopped why last
        ∧ before.state.Leaves i ending.machine.state
        ∧ ending.machine.frames = []
        ∧ ending.machine.depthLimit = m.depthLimit := by
  obtain ⟨steps, before, bound, reached, closes⟩ := Machine.closesWith_of_run ran
  cases closes with
  | finished idle => cases stopped
  | @stopped _ last step =>
      cases stopped
      obtain ⟨i, known, leaves, limit⟩ := (closed.after reached).closed.leaves_of_stopped step
      exact ⟨steps, before, i, last, bound, reached, known, step, leaves, rfl,
        limit.trans (Machine.depthLimit_after reached)⟩

namespace Session

/-- A failing run leaves exactly the state of the failing instruction. In every session that can be
reached,
for all code that was given out or is held, a run that stops, at whatever depth of calls, has a last
moment at which an instruction fails. The stack, symbol table and store afterwards are those of that
moment; nothing is written by the instruction that fails, and input is taken by it only if it reads.
No call stays active: any further code, even if it is called on top of what the machine has left,
runs as on a new machine over that store with those operands. Witness: by cases on the instruction,
where well-formed code leaves out the assignment to a slot that does not exist.
-/
theorem failed_run_leaves_last_moment {compiled : List Chunk} {s : Session}
    (reachable : Reachable compiled s) {chunk : Chunk}
    (member : chunk ∈ compiled ++ s.machine.state.code) {fuel : Nat} {ending : Machine.Ending}
    (ran : s.machine.runChunk fuel chunk = some ending) {why : Stop}
    (stopped : ending.stop = some why)
    : ∃ steps before i last,
        steps < fuel
        ∧ Machine.after steps { s.machine with frames := [chunk.toList] } = some before
        ∧ before.instruction? = some i
        ∧ before.step = .stopped why last
        ∧ ending.machine.stack = before.stack
        ∧ ending.machine.store = before.store
        ∧ ending.machine.console.output = before.console.output
        ∧ ending.machine.console.input <:+ before.console.input
        ∧ (ending.machine.console ≠ before.console
            → ∃ b, before.store.get? i.id = some (.builtin b) ∧ b.reads = true)
        ∧ ending.machine.frames = []
        ∧ ∀ fuel further,
            Machine.run fuel
                { ending.machine with frames := further.toList :: ending.machine.frames }
              = Machine.runChunk fuel
                  {
                    store := before.store
                    stack := before.stack
                    console := ending.machine.console
                    serial := before.serial
                    depthLimit := s.machine.depthLimit
                  }
                  further := by
  have start := reachable.closed.starts member
  obtain ⟨steps, before, i, last, bound, reached, known, step, leaves, idle, limit⟩ :=
    start.last_moment ran stopped
  obtain ⟨same, consumes, reader⟩ := leaves
  have stack : ending.machine.stack = before.stack := congrArg State.stack same
  have store : ending.machine.store = before.store := congrArg State.store same
  have serial : ending.machine.serial = before.serial := congrArg State.serial same
  refine ⟨steps, before, i, last, bound, reached, known, step, stack, store, consumes.output,
    consumes.input, reader, idle, ?_⟩
  intro fuel further
  have limit : ending.machine.depthLimit = s.machine.depthLimit := limit
  rw [Machine.runChunk, ← stack, ← store, ← serial, ← limit, idle]

/-- A division by zero beneath two calls, in a function that took the place of its caller. -/
theorem failed_run_beneath_calls
    : let given := (Session.new [] {}).compile
        "( 0 / 1 ) $=f ( f ) $=g ( g 2 ) $=h 7 h 3".toList true
      ∃ chunk ending steps before,
        given.1 = .ok chunk
        ∧ given.2.machine.runChunk 40 chunk = some ending
        ∧ ending.stop = some (.fault .divisionByZero)
        ∧ Machine.after steps { given.2.machine with frames := [chunk.toList] } = some before
        ∧ ending.machine.stack = before.stack
        ∧ before.stack = [.int 0, .int 7]
        ∧ ending.machine.frames = [] := by
  have reachable := Reachable.compile (.new [] {})
    "( 0 / 1 ) $=f ( f ) $=g ( g 2 ) $=h 7 h 3".toList true
  have ends : (match (Session.new [] {}).compile
        "( 0 / 1 ) $=f ( f ) $=g ( g 2 ) $=h 7 h 3".toList true with
      | (.ok chunk, s) => (s.machine.runChunk 40 chunk).map fun ending =>
          (ending.stop, ending.machine.stack)
      | (.error _, _) => none) = some (some (.fault .divisionByZero), [.int 0, .int 7]) := by
    cbv
  generalize Session.compile _ _ true = given at reachable ends ⊢
  obtain ⟨result, s⟩ := given
  cases result with
  | error fault => cases ends
  | ok chunk =>
      obtain ⟨ending, ran, same⟩ := Option.map_eq_some_iff.mp ends
      obtain ⟨stopped, left⟩ := Prod.mk.inj same
      obtain ⟨steps, before, _, _, _, reached, _, _, stack, _, _, _, _, idle, _⟩ :=
        failed_run_leaves_last_moment reachable (by simp [Except.toOption]) ran stopped
      exact ⟨chunk, ending, steps, before, rfl, ran, stopped, reached, stack,
        stack.symm.trans left, idle⟩

end Session

end StackText
