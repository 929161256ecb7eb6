import Mathlib
import StackText.Proofs.Machine.EarlierOutput
import StackText.Proofs.Reader.AppendedSlots
import StackText.Proofs.Reader.FirstToken
import StackText.Proofs.Service.Requests
import StackText.Proofs.Session.FailedRun

/-! A reply tells what the service is left with: whether text is pending, what the code of the
request has printed, and the operands that all requests share.
-/

namespace StackText

-----------------------------------------------------------------------------------------
-- Earlier output
-----------------------------------------------------------------------------------------

namespace Session

/-- The session with another text written so far. -/
def withOutput (s : Session) (text : String) : Session :=
  { s with machine := { s.machine with console := { s.machine.console with output := text } } }

/-- The session with a text written before all else. -/
def behind (text : String) (s : Session) : Session := { s with machine := s.machine.behind text }

theorem listCode_behind (s : Session) (chunk : Chunk) (text : String)
    : (s.behind text).listCode chunk = (s.listCode chunk).map (behind text) := by
  rw [listCode, listCode, show (s.behind text).listsCode = s.listsCode from rfl,
    show (s.behind text).machine.store = s.machine.store from rfl]
  split
  · cases chunk.listing (some s.machine.store) 0 <;> rfl
  · rfl

theorem traceStack_behind (s : Session) (text : String)
    : (s.behind text).traceStack = s.traceStack.behind text := by
  rw [traceStack, traceStack, show (s.behind text).traces = s.traces from rfl]
  split <;> rfl

theorem run_behind (s : Session) (fuel : Nat) (chunk : Chunk) (text : String)
    : (s.behind text).run fuel chunk
      = (s.run fuel chunk).map fun ended => (ended.1, ended.2.behind text) := by
  rw [run, run, listCode_behind]
  cases s.listCode chunk with
  | error fault => rfl
  | ok listed =>
      have ran : (listed.behind text).machine.runChunk fuel chunk
          = (listed.machine.runChunk fuel chunk).map (Machine.Ending.behind text) :=
        Machine.run_behind fuel { listed.machine with frames := [chunk.toList] } text
      simp only [Except.map, ran]
      cases listed.machine.runChunk fuel chunk with
      | none => rfl
      | some ending =>
          obtain ⟨stop, last⟩ := ending
          cases stop with
          | some why => rfl
          | none =>
              have traced := traceStack_behind { listed with machine := last } text
              exact congrArg some (congrArg _ traced)

/-- An evaluation takes the same course behind what was written before. -/
theorem eval_behind (s : Session) (fuel : Nat) (code : List Char) (final : Bool) (text : String)
    : (s.behind text).eval fuel code final
      = (s.eval fuel code final).map fun ended => (ended.1, ended.2.behind text) := by
  have traced : (s.behind text).traceText code = (s.traceText code).behind text := by
    rw [traceText, traceText, show (s.behind text).traces = s.traces from rfl]
    split <;> rfl
  have compiled : ∀ t : Session, (t.behind text).compile code final
      = ((t.compile code final).1, (t.compile code final).2.behind text) := fun _ => rfl
  rw [eval, eval, traced, compiled]
  obtain ⟨result, given⟩ := (s.traceText code).compile code final
  cases result with
  | error fault => rfl
  | ok chunk => exact run_behind given fuel chunk text

-----------------------------------------------------------------------------------------
-- The end of an evaluation
-----------------------------------------------------------------------------------------

/-- A closed session either refuses a text, or runs its code and keeps the reader as it was left by
compiling.
-/
theorem Closed.eval_cases {compiled : List Chunk} {s last : Session} (closed : s.Closed compiled)
    {fuel : Nat} {code : List Char} {final : Bool} {outcome : Except Failure Value}
    (ended : s.eval fuel code final = some (outcome, last))
    : (∃ fault,
        (s.compile code final).1 = .error fault
        ∧ outcome = .error (.read fault)
        ∧ last.machine = (s.compile code final).2.machine
        ∧ last.reader = (s.compile code final).2.reader)
      ∨ ∃ chunk ending,
          (s.compile code final).1 = .ok chunk
          ∧ (s.compile code final).2.machine.runChunk fuel chunk = some ending
          ∧ (∀ failure, outcome = .error failure
              → ∃ why, failure = .stop why ∧ ending.stop = some why)
          ∧ last.machine = ending.machine
          ∧ last.reader = (s.compile code final).2.reader := by
  cases compiles : (s.compile code final).1 with
  | error fault =>
      obtain ⟨refused, machine, reader, evaluates⟩ := eval_of_error compiles
      cases (evaluates fuel).symm.trans ended
      exact .inl ⟨fault, rfl, rfl, machine, reader⟩
  | ok chunk =>
      obtain ⟨listed, _, reader, evaluates⟩ := closed.eval_of_ok compiles
      rw [evaluates] at ended
      obtain ⟨ending, ran, settled⟩ := Option.map_eq_some_iff.mp ended
      refine .inr ⟨chunk, ending, rfl, ran, ?_, ?_, ?_⟩
      · intro failure failed
        exact settle_error (s := listed) (by rw [settled, failed])
      · rw [← machine_settle listed, settled]
      · rw [← reader, ← reader_settle listed ending, settled]

end Session

/-- A reader is pending after a text that needs more. Witness: what is unfinished is a string, which
is held from its quote on, or a block.
-/
theorem Reader.isPending_of_incomplete {reader : Reader} {store : Store} {piece : List Char}
    {what : Unfinished}
    (incomplete : (reader.compile store piece false).result = .error (.incomplete what))
    : (reader.compile store piece false).reader.isPending = true := by
  rw [compile_eq] at incomplete ⊢
  cases read : Draft.tokens ⟨store, reader.outer, reader.chunk⟩
      (Token.sequence (reader.held ++ piece)) with
  | mk draft stoppage =>
      rw [read] at incomplete
      cases stoppage with
      | none =>
          simp only [conclude, unfinished] at incomplete ⊢
          split at incomplete
          · cases incomplete
          · next inside => simp [isPending, inside]
      | some stoppage =>
          cases stoppage with
          | strayClose | numeral fault | code fault => cases incomplete
          | unterminated rest =>
              obtain ⟨quote, rest, rfl, _⟩ :=
                Token.read?_of_unterminated (Draft.mem_of_unterminated read)
              simp [conclude, unfinished, isPending]

-----------------------------------------------------------------------------------------
-- What a reply tells
-----------------------------------------------------------------------------------------

namespace Service

variable {service next : Service} {fuel : Nat} {request : Json} {reply : Reply} {code : String}

/-- The fields of a reply to code that ended by itself or by an exit. -/
theorem fields_success (s : Session) (exit : Option Int)
    : let response := (success s exit).response
      response.field? "ok" = some (.bool true)
      ∧ response.field? "incomplete" = none
      ∧ response.field? "exit" = exit.map Json.int
      ∧ response.field? "output" = some (.str s.machine.console.output)
      ∧ response.field? "stack" = some (.arr (s.operands.map fun v => .str v.render)) := by
  cases exit <;> simp [success, Json.field?]

/-- The fields of a reply to code that failed. -/
theorem fields_refusal (incomplete : Bool) (error : String)
    : let response := (refusal incomplete error).response
      response.field? "ok" = some (.bool false)
      ∧ response.field? "incomplete" = some (.bool incomplete)
      ∧ response.field? "exit" = none
      ∧ response.field? "error" = some (.str error) := by
  simp [refusal, Json.field?]

/-- A service hangs up after a reply to code that ended exactly if there is an exit code. -/
theorem hangUp_success_iff (s : Session) (exit : Option Int)
    : (success s exit).hangUp = true
      ↔ ((success s exit).response.field? "exit").isSome = true := by
  obtain ⟨_, _, exits, _⟩ := fields_success s exit
  rw [exits, Option.isSome_map]
  rfl

/-- A service never hangs up after a reply to code that failed, which has no exit code. -/
theorem hangUp_refusal_iff (incomplete : Bool) (error : String)
    : (refusal incomplete error).hangUp = true
      ↔ ((refusal incomplete error).response.field? "exit").isSome = true := by
  obtain ⟨_, _, exits, _⟩ := fields_refusal incomplete error
  rw [exits]
  exact ⟨nofun, nofun⟩

/-- A service hangs up exactly after a reply that carries an exit code. -/
theorem Concludes.hangUp_iff {last : Session} {outcome : Except Failure Value}
    (concludes : service.Concludes last outcome (.ok reply, next))
    : reply.hangUp = true ↔ (reply.response.field? "exit").isSome = true := by
  cases concludes with
  | finished => exact hangUp_success_iff last none
  | exited => exact hangUp_success_iff last (some _)
  | incomplete => exact hangUp_refusal_iff true _
  | refused => exact hangUp_refusal_iff false _

/-- (service.Coherent fuel code reply next) holds if the reply to some code tells what it has left
the service with. -/
structure Coherent (service : Service) (fuel : Nat) (code : String) (reply : Reply)
    (next : Service)
    : Prop where
  /-- Text is pending exactly if the reply asks for more. -/
  pending
    : next.session.reader.isPending = true
      ↔ reply.response.field? "incomplete" = some (.bool true)
  /-- A reply says whether the code ended by itself or by an exit. -/
  verdict
    : reply.response.field? "ok" = some (.bool true)
      ∨ reply.response.field? "ok" = some (.bool false)
  /-- If so, the output is what the code adds to any text that was written before, and the stack is
  that of the service.
  -/
  ended
    : reply.response.field? "ok" = some (.bool true)
      → ∃ outcome printed,
          (∀ before,
            (service.session.withOutput before).eval fuel code.toList false
              = some (outcome, next.session.withOutput (before ++ printed)))
          ∧ reply.response.field? "output" = some (.str printed)
          ∧ reply.response.field? "stack"
            = some (.arr (next.session.machine.stack.reverse.map fun v => .str v.render))
  /-- Text that does not compile leaves the stack and all slots as they are. -/
  unread
    : ∀ fault,
        (service.session.compile code.toList false).1 = .error fault
        → reply.response.field? "ok" = some (.bool false)
          ∧ next.session.machine.stack = service.session.machine.stack
          ∧ service.session.machine.store.Appends next.session.machine.store
  /-- Code that fails leaves the stack and the store of the instruction that fails. -/
  failed
    : ∀ chunk,
        (service.session.compile code.toList false).1 = .ok chunk
        → reply.response.field? "ok" = some (.bool false)
        → ∃ steps before i fault last,
            Machine.after steps {
                ((service.session.withOutput "").compile code.toList false).2.machine with
                frames := [chunk.toList]
              } = some before
            ∧ before.instruction? = some i
            ∧ before.step = .stopped (.fault fault) last
            ∧ next.session.machine.stack = before.stack
            ∧ next.session.machine.store = before.store
            ∧ reply.response.field? "incomplete" = some (.bool false)
            ∧ reply.response.field? "error"
              = some (.str (fault.kind.name ++ ": " ++ fault.message))

/-- Code that gets a reply was evaluated by the session. -/
theorem Concludes.eval {outcome : Except Failure Value} {last : Session}
    (concludes : service.Concludes last outcome (.ok reply, next))
    (ended : service.evalFor fuel code = some (outcome, last))
    : (clearOutput service.session).eval fuel code.toList false = some (outcome, last) := by
  rcases service.evalFor_cases code with same | ⟨_, _, _, unlisted⟩
  · exact (same fuel).symm.trans ended
  · cases (unlisted.ends fuel).symm.trans ended
    cases concludes with
    | refused reported => cases reported

/-- An evaluation adds to any text that was written before what it prints for a client. -/
theorem eval_withOutput {outcome : Except Failure Value} {last : Session}
    (ended : (clearOutput service.session).eval fuel code.toList false = some (outcome, last))
    (before : String)
    : (service.session.withOutput before).eval fuel code.toList false
      = some (outcome, last.withOutput (before ++ last.machine.console.output)) := by
  have fresh : service.session.withOutput before
      = (clearOutput service.session).behind before := by
    simp [Session.withOutput, Session.behind, clearOutput, Machine.behind, Console.behind]
  rw [fresh, Session.eval_behind, ended]
  rfl

/-- Text that does not compile: the reply asks for more exactly if text is pending. -/
theorem Sound.coherent_of_error (sound : service.Sound) {fault : ReadFault} {last : Session}
    (refused : (service.session.compile code.toList false).1 = .error fault)
    (machine : last.machine = ((service.session.withOutput "").compile code.toList false).2.machine)
    (reader : last.reader = (service.session.compile code.toList false).2.reader)
    (concludes : service.Concludes last (.error (.read fault)) (.ok reply, next))
    : service.Coherent fuel code reply next := by
  have stack : last.machine.stack = service.session.machine.stack := by rw [machine]; rfl
  have appends : service.session.machine.store.Appends last.machine.store := by
    rw [machine]
    exact Reader.appends_compile sound.closed.state.store.formed _ _ _
  cases concludes with
  | incomplete =>
      have pending : last.reader.isPending = true := by
        rw [reader]
        exact Reader.isPending_of_incomplete refused
      obtain ⟨ok, incomplete, _⟩ := fields_refusal true (Unfinished.message _)
      exact {
        pending := iff_of_true pending incomplete
        verdict := .inr ok
        ended := by simp [ok]
        unread := fun _ _ => ⟨ok, stack, appends⟩
        failed := by simp [refused]
      }
  | refused reported complete =>
      obtain ⟨ok, incomplete, _⟩ := fields_refusal false (Report.text _)
      exact {
        pending := by simp [incomplete, Session.resetReader, Reader.isPending, Reader.fresh]
        verdict := .inr ok
        ended := by simp [ok]
        unread := fun _ _ => ⟨ok, stack, appends⟩
        failed := by simp [refused]
      }

/-- Code that ended by itself or by an exit. -/
theorem coherent_of_success {outcome : Except Failure Value} {last : Session} {chunk : Chunk}
    (ended : (clearOutput service.session).eval fuel code.toList false = some (outcome, last))
    (compiles : (service.session.compile code.toList false).1 = .ok chunk)
    (fresh : last.reader = .fresh) (exit : Option Int)
    : service.Coherent fuel code (success last exit) { service with session := last } := by
  obtain ⟨ok, incomplete, _, output, stack⟩ := fields_success last exit
  exact {
    pending := by simp [incomplete, fresh, Reader.isPending, Reader.fresh]
    verdict := .inl ok
    ended := fun _ => ⟨outcome, _, eval_withOutput ended, output, stack⟩
    unread := by simp [compiles]
    failed := by simp [ok]
  }

/-- Code that failed. The stack and the store are those of the instruction that fails. -/
theorem Sound.coherent_of_fault (sound : service.Sound) {chunk : Chunk}
    (compiles : (service.session.compile code.toList false).1 = .ok chunk)
    {ending : Machine.Ending}
    (ran : ((service.session.withOutput "").compile code.toList false).2.machine.runChunk fuel chunk
      = some ending)
    {fault : Fault} (stopped : ending.stop = some (.fault fault)) {last : Session}
    (machine : last.machine = ending.machine)
    : service.Coherent fuel code (refusal false (fault.kind.name ++ ": " ++ fault.message))
        { service with session := last.resetReader } := by
  obtain ⟨ok, incomplete, _, error⟩ :=
    fields_refusal false (fault.kind.name ++ ": " ++ fault.message)
  have start := (sound.clearOutput.closed.compile_ok compiles).starts (List.mem_cons_self ..)
  obtain ⟨steps, before, i, fatal, _, reached, known, step, ⟨same, _, _⟩, _⟩ :=
    start.last_moment ran stopped
  rw [← machine] at same
  exact {
    pending := by simp [incomplete, Session.resetReader, Reader.isPending, Reader.fresh]
    verdict := .inr ok
    ended := by simp [ok]
    unread := by simp [compiles]
    failed := by
      intro given also _
      cases compiles.symm.trans also
      exact ⟨steps, before, i, fault, fatal, reached, known, step, congrArg State.stack same,
        congrArg State.store same, incomplete, error⟩
  }

/-- The reply to code that a sound service evaluates is coherent, by cases on what it concludes. -/
theorem Sound.coherent (sound : service.Sound) {outcome : Except Failure Value} {last : Session}
    (ended : service.evalFor fuel code = some (outcome, last))
    (concludes : service.Concludes last outcome (.ok reply, next))
    : service.Coherent fuel code reply next := by
  have ended := concludes.eval ended
  rcases sound.clearOutput.closed.eval_cases ended with ⟨fault, refused, rfl, machine, reader⟩
    | ⟨chunk, ending, compiles, ran, stops, machine, reader⟩
  · exact sound.coherent_of_error refused machine reader concludes
  · have fresh : last.reader = .fresh :=
      reader.trans (Reader.reader_compile (.inl ⟨chunk, compiles⟩))
    cases concludes with
    | finished | exited => exact coherent_of_success ended compiles fresh _
    | incomplete =>
        obtain ⟨why, same, _⟩ := stops _ rfl
        cases same
    | refused reported complete =>
        obtain ⟨why, rfl, stopped⟩ := stops _ rfl
        cases why with
        | fault fault =>
            cases reported
            exact sound.coherent_of_fault compiles ran stopped machine
        | _ => cases reported

/-- Replies tell what the service is left with. However many requests came before, with whatever
outcome, a request that gets a reply and is not to run code changes nothing; the connection is
closed exactly if the reply carries an exit code. A request that is to run code has a text for it.
After it, text is pending exactly if the reply says that the code is incomplete. If the reply is a
success, its output is what the code of this request adds to whatever was written before, and its
stack is that of the service, with the first operand first. Otherwise, if the text did not compile,
the stack and all slots are as they were; if it did, stack and store are those of the instruction
that failed, at whatever depth of calls. Witness: each way an evaluation ends comes to one kind of
reply, and a run takes the same course behind any earlier output.
-/
theorem replies_are_coherent (reachable : service.Reachable)
    (handled : service.handle fuel request = some (.ok reply, next))
    : (request.field? "cmd" ≠ some (.str "eval") → next = service)
      ∧ (reply.hangUp = true ↔ (reply.response.field? "exit").isSome = true)
      ∧ (request.field? "cmd" = some (.str "eval")
          → ∃ code,
              (request.field? "code").getD (.str "") = .str code
              ∧ service.Coherent fuel code reply next) := by
  rcases Json.Asks.cases request with ⟨code, asks⟩ | ⟨code, asks, other⟩ | never
  · rw [handle_of_asks_text asks] at handled
    obtain ⟨outcome, last, ended, concludes⟩ := exists_evalFor handled
    obtain ⟨fields, _, command, same⟩ := asks
    exact ⟨fun other => absurd command other, concludes.hangUp_iff,
      fun _ => ⟨code, same, reachable.sound.coherent ended concludes⟩⟩
  · rw [handle_of_asks_other asks other] at handled
    cases handled
  · obtain ⟨result, handles, refuses⟩ := handle_of_not_asks never service
    cases (handles fuel).symm.trans handled
    rcases refuses with ⟨error, same⟩ | ⟨type, same⟩
    · cases same
      refine ⟨fun _ => rfl, hangUp_refusal_iff false error, ?_⟩
      intro command
      cases request with
      | obj fields => exact absurd ⟨fields, rfl, command, rfl⟩ (never _)
      | _ => cases command
    · cases same

/-- Code that prints and then fails below a call leaves an operand behind. The reply to the next
request has the operand, but not the output.
-/
theorem coherent_after_printing_failure
    : let asking := fun code => Json.obj [("cmd", .str "eval"), ("code", .str code)]
      ∃ result service reply next,
        (Service.new []).handle 60 (asking "(5 'x' print car) $=f f") = some (result, service)
        ∧ service.handle 60 (asking "'y' print") = some (.ok reply, next)
        ∧ service.Coherent 60 "'y' print" reply next
        ∧ reply.response.field? "output" = some (.str "y")
        ∧ reply.response.field? "stack" = some (.arr [.str "5"]) := by
  intro asking
  let fault : Fault := .notPair .car .int
  have ran : (((Service.new []).evalFor 60 "(5 'x' print car) $=f f").bind fun first =>
        (evalFor ⟨first.2.resetReader, 992⟩ 60 "'y' print").map fun second =>
          (first.1.map fun _ => (), second.1.isOk, second.2.machine.console.output,
            second.2.operands.map Value.render))
      = some (.error (.stop (.fault fault)), true, "y", ["5"]) := by
    cbv
  obtain ⟨⟨outcome, middle⟩, first, ran⟩ := Option.bind_eq_some_iff.mp ran
  obtain ⟨⟨result, last⟩, second, same⟩ := Option.map_eq_some_iff.mp ran
  simp only [Prod.mk.injEq] at same
  obtain ⟨failed, finished, output, operands⟩ := same
  cases outcome with
  | ok value => cases failed
  | error failure =>
      cases failed
      cases result with
      | error failure => cases finished
      | ok value =>
          have refused : (Service.new []).handle 60 (asking "(5 'x' print car) $=f f")
              = some (.ok (refusal false (Report.text ⟨fault.kind, fault.message⟩)),
                ⟨middle.resetReader, 992⟩) := by
            rw [handle_of_asks_text ⟨_, rfl, rfl, rfl⟩, evaluate, first]
            rfl
          have replied : handle 60 ⟨middle.resetReader, 992⟩ (asking "'y' print")
              = some (.ok (success last none), ⟨last, 992⟩) := by
            rw [handle_of_asks_text ⟨_, rfl, rfl, rfl⟩, evaluate, second]
          have reachable := (Reachable.new [] 992).handle refused
          obtain ⟨_, _, evaluates⟩ := replies_are_coherent reachable replied
          obtain ⟨code, same, coherent⟩ := evaluates rfl
          cases same
          obtain ⟨_, _, _, printed, stack⟩ := fields_success last none
          have rendered : last.operands.map (fun v => Json.str v.render) = [.str "5"] := by
            simpa [Function.comp_def] using congrArg (List.map Json.str) operands
          exact ⟨_, _, _, _, refused, replied, coherent, by rw [printed, output],
            by rw [stack, rendered]⟩

end Service

end StackText
