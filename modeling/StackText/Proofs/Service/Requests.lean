import StackText.Proofs.Machine.Interruption
import StackText.Proofs.Session.Evaluation
import StackText.Service

/-! What a service makes of a request. Code that is a text either runs forever or comes to a reply,
or to a fault that a connection survives, unless it is to be listed and nests too deep for that; a
request that is no object comes to a fault that a connection survives as well.
-/

namespace StackText

-----------------------------------------------------------------------------------------
-- Code that a session evaluates
-----------------------------------------------------------------------------------------

namespace Session

variable {compiled : List Chunk} {s next : Session}

/-- Where the user does not interrupt, nor will they after an evaluation. Its text is not read, or
the code is stopped by something else than an interruption or a fault of its own.
-/
theorem Closed.eval_calm (closed : s.Closed compiled)
    (calm : s.machine.console.interrupts = false) {fuel : Nat} {text : List Char} {final : Bool}
    {result : Except Failure Value} (ran : s.eval fuel text final = some (result, next))
    : next.machine.console.interrupts = false
      ∧ ∀ failure, result = .error failure
          → (∃ fault, failure = .read fault)
            ∨ ∃ why, failure = .stop why ∧ why.blamesCode = false ∧ why ≠ .interrupted := by
  cases compiles : (s.compile text final).1 with
  | error fault =>
      obtain ⟨refused, machine, _, evaluates⟩ := eval_of_error compiles
      cases (evaluates fuel).symm.trans ran
      refine ⟨by rw [machine]; exact calm, ?_⟩
      intro failure same
      cases same
      exact .inl ⟨fault, rfl⟩
  | ok chunk =>
      obtain ⟨listed, _, _, evaluates⟩ := closed.eval_of_ok compiles
      rw [evaluates] at ran
      obtain ⟨ending, ends, settled⟩ := Option.map_eq_some_iff.mp ran
      let start : Machine := { (s.compile text final).2.machine with frames := [chunk.toList] }
      have ends : start.run fuel = some ending := ends
      have calm : start.console.interrupts = false := calm
      have last : next.machine = ending.machine := by rw [← machine_settle listed, settled]
      have kept : ending.machine.console.interrupts = false :=
        (State.kept_interrupts false).run (m := start) calm ends
      refine ⟨last ▸ kept, ?_⟩
      intro failure same
      rw [same] at settled
      obtain ⟨why, rfl, stopped⟩ := settle_error (congrArg Prod.fst settled)
      have closedStart : start.Closed :=
        (closed.compile_ok compiles).starts (List.mem_cons_self ..)
      refine .inr ⟨why, rfl, closedStart.run ends stopped, ?_⟩
      rintro rfl
      exact Machine.not_interrupted calm ends stopped

/-- Whether code is listed does not change. -/
theorem kept_listsCode (lists : Bool)
    : Kept (fun _ _ => True) (fun _ s => s.listsCode = lists) where
  compile same text final := by rw [recover_compile]; exact same
  run := by
    intro _ s _ chunk _ next same _ ran
    rw [Session.run] at ran
    split at ran
    · cases ran; exact same
    · next listed lists =>
        have same := (listCode_ok lists).2.2.trans same
        split at ran
        · cases ran
        · cases ran; exact same
        · cases ran
          rw [traceStack]
          split <;> exact same
  define same _ _ := same
  bindText same _ _ := same
  resetReader same := same
  withConsole same _ := same
  note same _ := same
  fewer same := same

@[simp] theorem listsCode_recover {α : Type} (s : Session) (result : Except Failure α)
    : (s.recover result).listsCode = s.listsCode := by
  fun_cases recover s result <;> rfl

end Session

-----------------------------------------------------------------------------------------
-- What a request asks for
-----------------------------------------------------------------------------------------

/-- (request.Asks code) holds if the request is to run its code, whatever value that is. -/
def Json.Asks (request code : Json) : Prop :=
  ∃ fields,
    request = .obj fields
    ∧ request.field? "cmd" = some (.str "eval")
    ∧ (request.field? "code").getD (.str "") = code

namespace Json.Asks

theorem unique {request code other : Json} (asks : request.Asks code) (also : request.Asks other)
    : code = other := by
  obtain ⟨_, _, _, same⟩ := asks
  obtain ⟨_, _, _, same'⟩ := also
  exact same.symm.trans same'

/-- A request is to run a text, to run something else, or not to run anything. -/
theorem cases (request : Json)
    : (∃ code, request.Asks (.str code))
      ∨ (∃ code, request.Asks code ∧ ∀ text, code ≠ .str text)
      ∨ ∀ code, ¬request.Asks code := by
  by_cases asks : ∃ code, request.Asks code
  · obtain ⟨code, asks⟩ := asks
    cases code with
    | str text => exact .inl ⟨text, asks⟩
    | _ => exact .inr (.inl ⟨_, asks, by simp⟩)
  · exact .inr (.inr (not_exists.mp asks))

end Json.Asks

namespace Service

/-- (service.Unlisted code last) holds if code is listed and there is no room to list this code,
which leaves the last session.
-/
structure Unlisted (service : Service) (code : String) (last : Session) : Prop where
  lists : service.session.listsCode = true
  ends : ∀ fuel, service.evalFor fuel code = some (.error (.listing .tooDeep), last)

/-- Code is evaluated as by the session, or it compiles and there is no room to list it. -/
theorem evalFor_cases (service : Service) (code : String)
    : (∀ fuel,
        service.evalFor fuel code = (clearOutput service.session).eval fuel code.toList false)
      ∨ ∃ chunk s,
          ((clearOutput service.session).traceText code.toList).compile code.toList false
            = (.ok chunk, s)
          ∧ service.Unlisted code (s.note Session.listingHead) := by
  cases compiles : ((clearOutput service.session).traceText code.toList).compile code.toList false
    with
  | mk result s =>
      cases result with
      | error fault =>
          refine .inl fun fuel => ?_
          rw [evalFor, Session.eval, compiles]
      | ok chunk =>
          have lists : s.listsCode = service.session.listsCode := by
            rw [← congrArg (·.2.listsCode) compiles]
            simp only [Session.compile, Session.traceText]
            split <;> rfl
          by_cases deep : (s.listsCode && service.room < chunk.listingCalls s.machine.store) = true
          · refine .inr ⟨chunk, s, rfl, ?_, fun fuel => ?_⟩
            · rw [Bool.and_eq_true] at deep
              exact lists ▸ deep.1
            · rw [evalFor, compiles]
              exact if_pos deep
          · refine .inl fun fuel => ?_
            rw [evalFor, Session.eval, compiles]
            exact if_neg deep

/-- (service.Exits request) holds if the request is to run a text that comes to an exit. -/
def Exits (service : Service) (request : Json) : Prop :=
  ∃ code fuel status last,
    request.Asks (.str code)
    ∧ service.evalFor fuel code = some (.error (.stop (.exit status)), last)

/-- (service.RunsForever request) holds if the request is to run a text that does not come to an
end.
-/
def RunsForever (service : Service) (request : Json) : Prop :=
  ∃ code, request.Asks (.str code) ∧ ∀ fuel, service.evalFor fuel code = none

variable {service next : Service} {fuel : Nat} {request : Json}

theorem evalFor_mono {code : String} {ended : Except Failure Value × Session}
    (ran : service.evalFor fuel code = some ended) {more : Nat} (enough : fuel ≤ more)
    : service.evalFor more code = some ended := by
  rcases service.evalFor_cases code with same | ⟨_, _, _, unlisted⟩
  · rw [same] at ran ⊢
    exact Session.eval_mono ran enough
  · rw [unlisted.ends] at ran ⊢
    exact ran

/-- The fuel does not matter to the end of an evaluation. -/
theorem evalFor_unique {code : String} {other : Nat}
    {ended alternative : Except Failure Value × Session}
    (ran : service.evalFor fuel code = some ended)
    (also : service.evalFor other code = some alternative)
    : ended = alternative := by
  have first := evalFor_mono ran (Nat.le_max_left fuel other)
  have second := evalFor_mono also (Nat.le_max_right fuel other)
  exact Option.some.inj (first.symm.trans second)

/-- Evaluating for a client keeps what a session keeps. -/
theorem evalFor_kept {binds : Session → Value → Prop} {holds : List Chunk → Session → Prop}
    (kept : Session.Kept binds holds) (given : List Chunk)
    (before : holds given (clearOutput service.session)) {code : String}
    {outcome : Except Failure Value} {last : Session}
    (ran : service.evalFor fuel code = some (outcome, last))
    : holds given (last.recover outcome) := by
  rcases service.evalFor_cases code with same | ⟨chunk, s, compiles, unlisted⟩
  · rw [same] at ran
    exact kept.eval before ran
  · cases (unlisted.ends fuel).symm.trans ran
    have after := kept.compile (kept.traceText before code.toList) code.toList false
    rw [compiles] at after
    exact kept.note (kept.fewer after) _

theorem handle_of_asks_text {code : String} (asks : request.Asks (.str code)) (fuel : Nat)
    (service : Service)
    : service.handle fuel request = service.evaluate fuel code := by
  obtain ⟨fields, rfl, command, same⟩ := asks
  simp only [handle, command, same]

/-- Code that is no text is a fault. -/
theorem handle_of_asks_other {code : Json} (asks : request.Asks code)
    (other : ∀ text, code ≠ .str text) (fuel : Nat) (service : Service)
    : service.handle fuel request
      = some (.error (.codeNotText code.typeName),
          { service with session := clearOutput service.session }) := by
  obtain ⟨fields, rfl, command, same⟩ := asks
  simp only [handle, command, same]

/-- Any other request changes nothing, and is refused or a fault that a connection survives. -/
theorem handle_of_not_asks (never : ∀ code, ¬request.Asks code) (service : Service)
    : ∃ result,
        (∀ fuel, service.handle fuel request = some (result, service))
        ∧ ((∃ error, result = .ok (refusal false error))
          ∨ ∃ type, result = .error (.notObject type)) := by
  cases request with
  | obj fields =>
      by_cases command : (Json.obj fields).field? "cmd" = some (.str "eval")
      · exact absurd ⟨fields, rfl, command, rfl⟩ (never _)
      · have unknown : ∀ fuel, service.handle fuel (.obj fields)
            = some (.ok (refusal false
              ("Unknown cmd: " ++ (((Json.obj fields).field? "cmd").getD .null).display)),
              service) := by
          intro fuel
          rw [handle]
          split
          · next known => exact absurd known command
          · rfl
        exact ⟨_, unknown, .inl ⟨_, rfl⟩⟩
  | _ => exact ⟨_, fun _ => rfl, .inr ⟨_, rfl⟩⟩

-----------------------------------------------------------------------------------------
-- What is made of an evaluation
-----------------------------------------------------------------------------------------

/-- (service.Concludes last outcome answer) holds if the answer is what a service makes of the end
of an evaluation that leaves the last session.
-/
inductive Concludes (service : Service) (last : Session)
    : Except Failure Value → Except RequestFault Reply × Service → Prop
  | finished {v}
    : Concludes service last (.ok v) (.ok (success last none), { service with session := last })
  | exited {status}
    : Concludes service last (.error (.stop (.exit status)))
        (.ok (success last (some status)), { service with session := last })
  | incomplete {what}
    : Concludes service last (.error (.read (.incomplete what)))
        (.ok (refusal true what.message), { service with session := last })
  | refused {failure report} (reported : failure.report? = some report)
    (complete : ∀ what, failure ≠ .read (.incomplete what))
    : Concludes service last (.error failure)
        (.ok (refusal false report.text), { service with session := last.resetReader })
  | escaped {failure} (unreported : failure.report? = none)
    (stays : ∀ status, failure ≠ .stop (.exit status))
    : Concludes service last (.error failure)
        (.error (.failure failure), { service with session := last })

theorem evaluate_of_evalFor {code : String} {outcome : Except Failure Value} {last : Session}
    (ends : service.evalFor fuel code = some (outcome, last))
    : ∃ answer,
        service.evaluate fuel code = some answer ∧ service.Concludes last outcome answer := by
  rw [evaluate, ends]
  cases outcome with
  | ok v => exact ⟨_, rfl, .finished⟩
  | error failure =>
      split
      · next none => cases none
      · next ok => cases ok
      · next exit => cases exit; exact ⟨_, rfl, .exited⟩
      · next stays same =>
          cases same
          split
          · exact ⟨_, rfl, .incomplete⟩
          · next complete reported => exact ⟨_, rfl, .refused reported complete⟩
          · next complete unreported => exact ⟨_, rfl, .escaped unreported stays⟩

theorem Concludes.exits_iff {last : Session} {outcome : Except Failure Value}
    {result : Except RequestFault Reply}
    (concludes : service.Concludes last outcome (result, next))
    : (∃ status, outcome = .error (.stop (.exit status)))
      ↔ ∃ reply, result = .ok reply ∧ reply.hangUp = true := by
  cases concludes with
  | finished | exited => simp [success]
  | incomplete => simp [refusal]
  | @refused failure _ reported _ =>
      have stays : ∀ status, failure ≠ .stop (.exit status) := by
        rintro status rfl
        cases reported
      simpa [refusal] using stays
  | escaped unreported stays => simpa using stays

theorem exists_evalFor {code : String} {answer : Except RequestFault Reply × Service}
    (answered : service.evaluate fuel code = some answer)
    : ∃ outcome last,
        service.evalFor fuel code = some (outcome, last)
        ∧ service.Concludes last outcome answer := by
  cases ends : service.evalFor fuel code with
  | none =>
      rw [evaluate, ends] at answered
      cases answered
  | some ended =>
      obtain ⟨_, evaluates, concludes⟩ := evaluate_of_evalFor ends
      cases evaluates.symm.trans answered
      exact ⟨ended.1, ended.2, rfl, concludes⟩

theorem evaluate_mono {code : String} {answer : Except RequestFault Reply × Service}
    (answered : service.evaluate fuel code = some answer) {more : Nat} (enough : fuel ≤ more)
    : service.evaluate more code = some answer := by
  obtain ⟨outcome, last, ends, _⟩ := exists_evalFor answered
  rw [← answered, evaluate, evaluate, ends, evalFor_mono ends enough]

/-- Room and listing stay as they are. -/
theorem handle_kept {result : Except RequestFault Reply}
    (handled : service.handle fuel request = some (result, next))
    : next.room = service.room ∧ next.session.listsCode = service.session.listsCode := by
  rcases Json.Asks.cases request with ⟨code, asks⟩ | ⟨code, asks, other⟩ | never
  · rw [handle_of_asks_text asks] at handled
    obtain ⟨outcome, last, ends, concludes⟩ := exists_evalFor handled
    have lists : last.listsCode = service.session.listsCode := by
      rw [← Session.listsCode_recover last outcome]
      exact evalFor_kept (Session.kept_listsCode _) [] rfl ends
    cases concludes <;> exact ⟨rfl, lists⟩
  · rw [handle_of_asks_other asks other] at handled
    cases handled
    exact ⟨rfl, rfl⟩
  · obtain ⟨result, handles, _⟩ := handle_of_not_asks never service
    cases (handles fuel).symm.trans handled
    exact ⟨rfl, rfl⟩

theorem handle_mono {answer : Except RequestFault Reply × Service}
    (answered : service.handle fuel request = some answer) {more : Nat} (enough : fuel ≤ more)
    : service.handle more request = some answer := by
  rcases Json.Asks.cases request with ⟨code, asks⟩ | ⟨code, asks, other⟩ | never
  · rw [handle_of_asks_text asks] at answered ⊢
    exact evaluate_mono answered enough
  · rw [handle_of_asks_other asks other] at answered ⊢
    exact answered
  · obtain ⟨result, handles, _⟩ := handle_of_not_asks never service
    rw [handles] at answered ⊢
    exact answered

/-- A request is answered, or it runs forever. -/
theorem exists_handle (service : Service) (request : Json)
    : (∃ fuel answer, service.handle fuel request = some answer) ∨ service.RunsForever request := by
  rcases Json.Asks.cases request with ⟨code, asks⟩ | ⟨code, asks, other⟩ | never
  · by_cases ends : ∃ fuel ended, service.evalFor fuel code = some ended
    · obtain ⟨fuel, ended, ends⟩ := ends
      obtain ⟨answer, evaluates, _⟩ := evaluate_of_evalFor ends
      exact .inl ⟨fuel, answer, by rw [handle_of_asks_text asks, evaluates]⟩
    · refine .inr ⟨code, asks, fun fuel => ?_⟩
      exact Option.eq_none_iff_forall_ne_some.mpr fun ended same => ends ⟨fuel, ended, same⟩
  · exact .inl ⟨0, _, handle_of_asks_other asks other 0 service⟩
  · obtain ⟨result, handles, _⟩ := handle_of_not_asks never service
    exact .inl ⟨0, _, handles 0⟩

theorem RunsForever.handle (forever : service.RunsForever request) (fuel : Nat)
    : service.handle fuel request = none := by
  obtain ⟨code, asks, never⟩ := forever
  rw [handle_of_asks_text asks, evaluate, never fuel]

/-- The connection is closed exactly after an exit. -/
theorem exits_iff {result : Except RequestFault Reply}
    (handled : service.handle fuel request = some (result, next))
    : service.Exits request ↔ ∃ reply, result = .ok reply ∧ reply.hangUp = true := by
  rcases Json.Asks.cases request with ⟨code, asks⟩ | ⟨code, asks, other⟩ | never
  · rw [handle_of_asks_text asks] at handled
    obtain ⟨outcome, last, ends, concludes⟩ := exists_evalFor handled
    have exits : service.Exits request
        ↔ ∃ status, outcome = .error (.stop (.exit status)) := by
      constructor
      · rintro ⟨code', fuel', status, last', asks', ends'⟩
        cases asks.unique asks'
        cases evalFor_unique ends ends'
        exact ⟨status, rfl⟩
      · rintro ⟨status, rfl⟩
        exact ⟨code, fuel, status, last, asks, ends⟩
    exact exits.trans concludes.exits_iff
  · rw [handle_of_asks_other asks other] at handled
    cases handled
    constructor
    · rintro ⟨code', _, _, _, asks', _⟩
      exact absurd (asks.unique asks') (other code')
    · rintro ⟨reply, same, _⟩
      cases same
  · obtain ⟨result, handles, refuses⟩ := handle_of_not_asks never service
    cases (handles fuel).symm.trans handled
    constructor
    · rintro ⟨code, _, _, _, asks, _⟩
      exact absurd asks (never _)
    · rintro ⟨reply, rfl, hangUp⟩
      rcases refuses with ⟨error, same⟩ | ⟨type, same⟩
      · cases same; cases hangUp
      · cases same

-----------------------------------------------------------------------------------------
-- Sound services
-----------------------------------------------------------------------------------------

/-- (Reachable service) holds if a service is new or has been left by a request. -/
inductive Reachable : Service → Prop
  | new (settings : Settings) (room : Nat)
    : Reachable (Service.new settings room)
  | handle {service fuel request result next} (reached : Reachable service)
    (handled : service.handle fuel request = some (result, next))
    : Reachable next

/-- (service.Sound) holds if all code of its session is closed and no one interrupts it. -/
structure Sound (service : Service) : Prop where
  closed : service.session.Closed []
  calm : service.session.machine.console.interrupts = false

theorem sound_new (settings : Settings) (room : Nat)
    : (Service.new settings room).Sound :=
  ⟨Session.closed_new settings {}, rfl⟩

theorem Sound.clearOutput (sound : service.Sound)
    : Sound { service with session := clearOutput service.session } := by
  obtain ⟨⟨state, reader, code, idle, room⟩, calm⟩ := sound
  exact ⟨⟨⟨state.store, state.stack⟩, reader, code, idle, room⟩, calm⟩

/-- The failures of code that a sound service runs: its text is not read, it is stopped by something
else than an interruption or a fault of its own, or there is no room to list it.
-/
theorem Sound.evalFor (sound : service.Sound) {code : String} {outcome : Except Failure Value}
    {last : Session} (ends : service.evalFor fuel code = some (outcome, last))
    : last.machine.console.interrupts = false
      ∧ ∀ failure, outcome = .error failure
          → (∃ fault, failure = .read fault)
            ∨ (∃ why, failure = .stop why ∧ why.blamesCode = false ∧ why ≠ .interrupted)
            ∨ service.Unlisted code last := by
  obtain ⟨closed, calm⟩ := sound.clearOutput
  rcases service.evalFor_cases code with same | ⟨chunk, s, compiles, unlisted⟩
  · rw [same] at ends
    obtain ⟨calmLast, failures⟩ := closed.eval_calm calm ends
    exact ⟨calmLast, fun failure failed => (failures failure failed).imp_right .inl⟩
  · cases (unlisted.ends fuel).symm.trans ends
    refine ⟨?_, fun _ _ => .inr (.inr unlisted)⟩
    show s.machine.console.interrupts = false
    rw [← congrArg (·.2.machine.console.interrupts) compiles]
    simpa [Session.compile] using calm

/-- What a sound service makes of the end of code is sound, and a connection survives it unless
there was no room to list the code.
-/
theorem Sound.concludes (sound : service.Sound) {code : String} {outcome : Except Failure Value}
    {last : Session} (ends : service.evalFor fuel code = some (outcome, last))
    {result : Except RequestFault Reply} (concludes : service.Concludes last outcome (result, next))
    : next.Sound
      ∧ ∀ fault, result = .error fault
          → (∃ message, Connection.survivable? fault = some message)
            ∨ service.Unlisted code last := by
  obtain ⟨calmLast, failures⟩ := sound.evalFor ends
  have closedLast := evalFor_kept Session.kept_closed [] sound.clearOutput.closed ends
  cases concludes with
  | finished | exited | incomplete => exact ⟨⟨closedLast, calmLast⟩, by simp⟩
  | refused reported complete =>
      refine ⟨⟨?_, calmLast⟩, by simp⟩
      show last.resetReader.Closed []
      rw [← Session.resetReader_recover]
      exact closedLast.resetReader
  | @escaped failure unreported stays =>
      have whole : ∀ fault,
          (.error failure : Except Failure Value) ≠ .error (.read (.code fault)) := by
        rintro fault ⟨⟩
        cases unreported
      rw [Session.recover_of_ne whole] at closedLast
      refine ⟨⟨closedLast, calmLast⟩, ?_⟩
      rintro _ ⟨⟩
      rcases failures failure rfl with ⟨fault, rfl⟩ | ⟨why, rfl, innocent, undisturbed⟩ | unlisted
      · cases fault with
        | numeral fault => exact .inl ⟨_, rfl⟩
        | _ => cases unreported
      · cases why with
        | numeral fault => exact .inl ⟨_, rfl⟩
        | fault _ => cases unreported
        | exit status => exact absurd rfl (stays status)
        | interrupted => exact absurd rfl undisturbed
        | cutShort => cases innocent
      · exact .inr unlisted

/-- A request leaves a sound service, and comes to a fault that its connection does not survive only
if its code is no text, or there is no room to list it.
-/
theorem Sound.handle (sound : service.Sound) {result : Except RequestFault Reply}
    (handled : service.handle fuel request = some (result, next))
    : next.Sound
      ∧ ∀ fault, result = .error fault
          → (∃ message, Connection.survivable? fault = some message)
            ∨ (∃ code, request.Asks code ∧ ∀ text, code ≠ .str text)
            ∨ ∃ code last, request.Asks (.str code) ∧ service.Unlisted code last := by
  rcases Json.Asks.cases request with ⟨code, asks⟩ | ⟨code, asks, other⟩ | never
  · rw [handle_of_asks_text asks] at handled
    obtain ⟨outcome, last, ends, concludes⟩ := exists_evalFor handled
    obtain ⟨soundNext, faults⟩ := sound.concludes ends concludes
    refine ⟨soundNext, fun fault same => ?_⟩
    rcases faults fault same with survives | unlisted
    · exact .inl survives
    · exact .inr (.inr ⟨code, last, asks, unlisted⟩)
  · rw [handle_of_asks_other asks other] at handled
    cases handled
    exact ⟨sound.clearOutput, fun _ _ => .inr (.inl ⟨code, asks, other⟩)⟩
  · obtain ⟨result, handles, refuses⟩ := handle_of_not_asks never service
    cases (handles fuel).symm.trans handled
    refine ⟨sound, ?_⟩
    rintro fault rfl
    rcases refuses with ⟨error, same⟩ | ⟨type, same⟩
    · cases same
    · cases same; exact .inl ⟨_, rfl⟩

/-- Every reachable service is sound, by induction on the requests. -/
theorem Reachable.sound (reachable : service.Reachable)
    : service.Sound := by
  induction reachable with
  | new settings room => exact sound_new settings room
  | handle _ handled ih => exact (ih.handle handled).1

end Service

end StackText
