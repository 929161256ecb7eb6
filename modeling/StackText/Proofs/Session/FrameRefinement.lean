import Mathlib
import StackText.Proofs.Session.Reachable

/-! The machine with frames does what plain recursive execution does, up to the limit of active
calls.
-/

namespace StackText.Session

/-- Every function that a session was given or holds has code that decodes. For all such code, in a
run that does not go beyond the limit of active calls, the machine comes to an ending exactly if
carrying out the instructions, with called functions in place, does: with the same outcome, stack,
store, remaining input and output. So a call is the same as the code of the called function in its
place, and only the limit shows that a caller with no code left has lost its frame. Witness: both
agree with execution that counts the frames left to use, one along the steps of the machine and the
other along the calls.
-/
theorem run_iff_executes {compiled : List Chunk} {s : Session} (reachable : Reachable compiled s)
    : (∀ chunk,
        (chunk ∈ compiled ∨ ∃ id f, s.machine.store.get? id = some (.func f) ∧ chunk = f.chunk)
        → ∃ code, chunk.instructions = .ok code)
      ∧ (∀ chunk code,
          chunk.instructions = .ok code
          → (∀ fuel ending limit,
              s.machine.runChunk fuel chunk = some ending
              → ending.stop ≠ some (.fault (.callDepth limit)))
          → ∀ ending,
              (∃ fuel, s.machine.runChunk fuel chunk = some ending)
              ↔ ∃ last,
                  ending.machine = last.calling [] s.machine.depthLimit
                  ∧ Executes code s.machine.state ending.stop last)
      ∧ ∀ (middle last : State) i f body code outcome,
          middle.effect i = .call f
          → f.chunk.instructions = .ok body
          → (Executes (i :: code) middle outcome last
            ↔ Executes (body ++ code) middle outcome last) := by
  have closed := reachable.closed
  refine ⟨?_, ?_, ?_⟩
  · rintro chunk (member | ⟨id, f, found, rfl⟩)
    · obtain ⟨code, encodes, _⟩ := closed.code chunk member
      exact ⟨code, encodes.instructions_eq⟩
    · obtain ⟨code, encodes, _⟩ := closed.state.store.values id _ found
      exact ⟨code, encodes.instructions_eq⟩
  · intro chunk code decodes shallow ending
    have encodes := Chunk.encodes_of_instructions decodes
    constructor
    · rintro ⟨fuel, ran⟩
      have below := shallow fuel ending s.machine.depthLimit ran
      rw [State.runChunk_eq encodes] at ran
      obtain ⟨last, machine, within⟩ :=
        executesWithin_of_run closed.room closed.state encodes.fits ran
      exact ⟨last, machine, within.executes below⟩
    · rintro ⟨last, machine, executes⟩
      obtain ⟨stop, _⟩ := ending
      subst machine
      rcases executes.within s.machine.depthLimit (s.machine.depthLimit - 1) with
        within | ⟨deep, stopped⟩
      · obtain ⟨fuel, ran⟩ := within.runs closed.room encodes.fits
        exact ⟨fuel, by rw [State.runChunk_eq encodes]; exact ran⟩
      · obtain ⟨fuel, ran⟩ := stopped.runs closed.room encodes.fits
        rw [← State.runChunk_eq encodes] at ran
        exact absurd rfl (shallow fuel _ _ ran)
  · intro middle last i f body code outcome effect decodes
    exact executes_call_iff_inlined effect decodes

/-- A session that was given code which calls a function twice, the second time as its last
instruction.
-/
theorem executes_two_calls
    : let given := (Session.new [] {}).compile "( 1 + ) $=f 5 f f".toList true
      ∃ chunk code last,
        given.1 = .ok chunk
        ∧ chunk.instructions = .ok code
        ∧ Executes code given.2.machine.state none last
        ∧ last.stack = [.int 7] := by
  have reachable := Reachable.compile (.new [] {}) "( 1 + ) $=f 5 f f".toList true
  have ends : (match (Session.new [] {}).compile "( 1 + ) $=f 5 f f".toList true with
      | (.ok chunk, s) => (s.machine.runChunk 40 chunk).map fun ending =>
          (ending.stop, ending.machine.stack)
      | (.error _, _) => none) = some (none, [.int 7]) := by
    cbv
  generalize Session.compile _ _ true = given at reachable ends ⊢
  obtain ⟨result, s⟩ := given
  cases result with
  | error fault => cases ends
  | ok chunk =>
      obtain ⟨⟨stop, machine⟩, ran, same⟩ := Option.map_eq_some_iff.mp ends
      obtain ⟨rfl, top⟩ := Prod.mk.inj same
      obtain ⟨decodable, refines, _⟩ := run_iff_executes reachable
      obtain ⟨code, decodes⟩ := decodable chunk (.inl (by simp [Except.toOption]))
      have shallow : ∀ fuel ending limit,
          s.machine.runChunk fuel chunk = some ending
          → ending.stop ≠ some (.fault (.callDepth limit)) := by
        intro fuel ending limit other
        rw [Machine.Ends.unique ⟨fuel, other⟩ ⟨40, ran⟩]
        simp
      obtain ⟨last, same, executes⟩ := (refines chunk code decodes shallow _).mp ⟨40, ran⟩
      refine ⟨chunk, code, last, rfl, decodes, executes, ?_⟩
      exact (congrArg Machine.stack same).symm.trans top

end StackText.Session
