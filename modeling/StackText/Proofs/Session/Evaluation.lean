import StackText.Proofs.Code.ClosedListing
import StackText.Proofs.Session.Reachable

/-! What evaluating a text comes to in a session whose code is closed: what the compiler says, or
how the run of the machine ends. Such code can always be listed.
-/

namespace StackText.Session

variable {compiled : List Chunk} {s : Session}

theorem Closed.listCode (closed : s.Closed compiled) {chunk : Chunk}
    (code : chunk.Closed s.machine.store.symbols)
    : ∃ listed, s.listCode chunk = .ok listed := by
  rw [Session.listCode]
  split
  · obtain ⟨text, lists⟩ : ∃ text, chunk.listing (some s.machine.store) 0 = .ok text :=
      Chunk.listing_closed closed.state.store code 0
    rw [lists]
    exact ⟨_, rfl⟩
  · exact ⟨s, rfl⟩

/-- What is made of the end of a run. -/
def settle (s : Session) (ending : Machine.Ending) : Except Failure Value × Session :=
  match ending.stop with
  | some why => (.error (.stop why), { s with machine := ending.machine })
  | none => (.ok ending.machine.top, { s with machine := ending.machine }.traceStack)

@[simp] theorem machine_settle (s : Session) (ending : Machine.Ending)
    : (s.settle ending).2.machine = ending.machine := by
  rw [settle]
  split <;> simp

@[simp] theorem reader_settle (s : Session) (ending : Machine.Ending)
    : (s.settle ending).2.reader = s.reader := by
  rw [settle]
  split <;> simp

/-- A failure after a run is what stopped it. -/
theorem settle_error {ending : Machine.Ending} {failure : Failure}
    (failed : (s.settle ending).1 = .error failure)
    : ∃ why, failure = .stop why ∧ ending.stop = some why := by
  rw [settle] at failed
  split at failed
  · next why stopped => cases failed; exact ⟨why, rfl, stopped⟩
  · cases failed

/-- Closed code runs as it does on the machine, with any fuel. -/
theorem Closed.run_eq (closed : s.Closed compiled) {chunk : Chunk}
    (code : chunk.Closed s.machine.store.symbols)
    : ∃ listed : Session,
        listed.machine = s.machine
        ∧ listed.reader = s.reader
        ∧ ∀ fuel, s.run fuel chunk = (s.machine.runChunk fuel chunk).map listed.settle := by
  obtain ⟨listed, lists⟩ := closed.listCode code
  obtain ⟨machine, reader, _⟩ := listCode_ok lists
  refine ⟨listed, machine, reader, ?_⟩
  intro fuel
  simp only [Session.run, lists, machine]
  cases s.machine.runChunk fuel chunk with
  | none => rfl
  | some ending =>
      obtain ⟨stop, last⟩ := ending
      cases stop <;> rfl

/-- A text that does not compile is refused without a run. -/
theorem eval_of_error {text : List Char} {final : Bool} {fault : ReadFault}
    (refused : (s.compile text final).1 = .error fault)
    : ∃ next,
        next.machine = (s.compile text final).2.machine
        ∧ next.reader = (s.compile text final).2.reader
        ∧ ∀ fuel, s.eval fuel text final = some (.error (.read fault), next) := by
  have traced : ((s.traceText text).compile text final).1 = .error fault := by
    simpa [Session.compile] using refused
  refine ⟨((s.traceText text).compile text final).2, by simp [Session.compile],
    by simp [Session.compile], ?_⟩
  intro fuel
  rw [Session.eval, ← Prod.eta ((s.traceText text).compile text final), traced]

/-- A text that compiles is run as its code is on the machine, with any fuel. -/
theorem Closed.eval_of_ok (closed : s.Closed compiled) {text : List Char} {final : Bool}
    {chunk : Chunk} (compiles : (s.compile text final).1 = .ok chunk)
    : ∃ listed : Session,
        listed.machine = (s.compile text final).2.machine
        ∧ listed.reader = (s.compile text final).2.reader
        ∧ ∀ fuel,
            s.eval fuel text final
            = ((s.compile text final).2.machine.runChunk fuel chunk).map listed.settle := by
  have traced : (s.traceText text).Closed compiled := closed.congr (by simp) (by simp)
  have ok : ((s.traceText text).compile text final).1 = .ok chunk := by
    simpa [Session.compile] using compiles
  have machine : ((s.traceText text).compile text final).2.machine
      = (s.compile text final).2.machine := by
    simp [Session.compile]
  have reader : ((s.traceText text).compile text final).2.reader
      = (s.compile text final).2.reader := by
    simp [Session.compile]
  have after := traced.compile_ok ok
  obtain ⟨listed, sameMachine, sameReader, runs⟩ :=
    after.run_eq (after.code chunk (List.mem_cons_self ..))
  refine ⟨listed, sameMachine.trans machine, sameReader.trans reader, ?_⟩
  intro fuel
  rw [Session.eval, ← Prod.eta ((s.traceText text).compile text final), ok]
  exact (runs fuel).trans (by rw [machine])

-----------------------------------------------------------------------------------------
-- Fuel
-----------------------------------------------------------------------------------------

theorem run_mono {fuel more : Nat} {chunk : Chunk} {ended : Except Failure Value × Session}
    (ran : s.run fuel chunk = some ended) (enough : fuel ≤ more)
    : s.run more chunk = some ended := by
  have kept : ∀ (m : Machine) {ending}, m.runChunk fuel chunk = some ending
      → m.runChunk more chunk = some ending :=
    fun _ _ ends => Machine.run_mono ends enough
  rw [Session.run] at ran ⊢
  split at ran
  · exact ran
  · split at ran
    · cases ran
    · next ends => simp only [kept _ ends]; exact ran
    · next ends => simp only [kept _ ends]; exact ran

theorem eval_mono {fuel more : Nat} {text : List Char} {final : Bool}
    {ended : Except Failure Value × Session} (ran : s.eval fuel text final = some ended)
    (enough : fuel ≤ more)
    : s.eval more text final = some ended := by
  rw [Session.eval] at ran ⊢
  split at ran
  · exact ran
  · exact run_mono ran enough

end StackText.Session
