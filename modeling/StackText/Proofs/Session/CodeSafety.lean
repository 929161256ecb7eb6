import Mathlib
import StackText.Proofs.Session.Reachable

/-! All code that a session ever holds is well formed: in open blocks, in the store, on the stack,
inside pairs and in the calls of a run, at any moment. So no code that was compiled is ever at fault
when it runs.
-/

namespace StackText

namespace Session

/-- All code that a session holds: that of the open blocks, and that of the functions in the store
and on the stack.
-/
def code (s : Session) : List Chunk :=
  s.reader.chunk :: s.reader.outer ++ s.machine.state.code

theorem Closed.admits {compiled : List Chunk} {s : Session} (closed : s.Closed compiled)
    {m : Machine} (leads : s.machine.Leads m)
    : ∀ chunk ∈ { s with machine := m }.code ++ compiled, m.store.Admits chunk.toList := by
  have state := leads.closed.state
  intro chunk member
  refine Store.admits_iff_closed.mpr ?_
  rw [Session.code, List.mem_append, List.mem_append, List.mem_cons] at member
  rcases member with ((rfl | outer) | held) | given
  · exact leads.symbols ▸ closed.reader.chunk
  · exact leads.symbols ▸ closed.reader.outer chunk outer
  · exact state.code chunk held
  · exact leads.symbols ▸ closed.code chunk given

/-- Compiled code is well formed wherever it is, and stays so while it runs. In every session that
can be reached, the code of all open blocks, of all functions in the store, on the stack or inside
pairs, and all code that was given out, consists of whole instructions with known opcodes on its
slots, and the slots that are applied or assigned to have names. The same holds, also of the code
left to all active calls, at each moment of a run of a function that was given out or is held. So no
such run is ever stopped by an unknown opcode, the id of no slot or the end of the code inside an
instruction. Witness: tokens add closed instructions only, an instruction moves values about without
making code, and closed code is what is well formed by its bytes.
-/
theorem code_wellFormed {compiled : List Chunk} {s : Session} (reachable : Reachable compiled s)
    : (∀ chunk ∈ s.code ++ compiled, s.machine.store.Admits chunk.toList)
      ∧ ∀ chunk ∈ compiled ++ s.machine.state.code,
          (∀ steps m,
            Machine.after steps { s.machine with frames := [chunk.toList] } = some m
            → (∀ frame ∈ m.frames, m.store.Admits frame)
              ∧ ∀ held ∈ { s with machine := m }.code ++ compiled,
                  m.store.Admits held.toList)
          ∧ ∀ fuel ending why,
              s.machine.runChunk fuel chunk = some ending
              → ending.stop = some why
              → why.blamesCode = false := by
  have closed := reachable.closed
  have idle : s.machine.Closed := ⟨closed.state, [], closed.idle, by simp⟩
  refine ⟨closed.admits ⟨idle, rfl⟩, ?_⟩
  intro chunk member
  have start := closed.starts member
  refine ⟨?_, ?_⟩
  · intro steps m reached
    have leads := start.after reached
    exact ⟨leads.closed.admits, closed.admits ⟨leads.closed, leads.symbols⟩⟩
  · intro fuel ending why ran stopped
    exact start.run ran stopped

/-- A function in the middle of a call that is not the last of its caller: both calls have
well-formed code left.
-/
theorem code_wellFormed_inside_call
    : let given := (Session.new [] {}).compile "( 1 + ) $=f 5 f f".toList true
      ∃ chunk m,
        given.1 = .ok chunk
        ∧ Machine.after 4 { given.2.machine with frames := [chunk.toList] } = some m
        ∧ m.frames.length = 2
        ∧ ∀ frame ∈ m.frames, m.store.Admits frame := by
  have reachable := Reachable.compile (.new [] {}) "( 1 + ) $=f 5 f f".toList true
  have two : (match (Session.new [] {}).compile "( 1 + ) $=f 5 f f".toList true with
      | (.ok chunk, s) => (Machine.after 4 { s.machine with frames := [chunk.toList] }).map fun m =>
          m.frames.length
      | (.error _, _) => none) = some 2 := by
    cbv
  generalize Session.compile _ _ true = given at reachable two ⊢
  obtain ⟨result, s⟩ := given
  cases result with
  | error fault => cases two
  | ok chunk =>
      obtain ⟨m, reached, count⟩ := Option.map_eq_some_iff.mp two
      obtain ⟨_, running⟩ := code_wellFormed reachable
      have moments := (running chunk (by simp [Except.toOption])).1
      exact ⟨chunk, m, rfl, reached, count, (moments 4 m reached).1⟩

end Session

end StackText
