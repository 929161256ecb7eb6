import Mathlib
import StackText.Proofs.Json.Nesting
import StackText.Proofs.Json.PlainText
import StackText.Proofs.Service.Framing
import StackText.Proofs.Service.Requests

/-! Each request that a connection receives gets one line in reply, in order, up to the first that
exits. Three things end a connection without a reply: code that is no text, and nested calls for
which there is no room, be it to read a line or to list code.
-/

namespace StackText

open Connection

-----------------------------------------------------------------------------------------
-- The answer to a line
-----------------------------------------------------------------------------------------

/-- Brackets are read as brackets, by induction on their number. -/
theorem Utf8.decode_brackets (count : Nat)
    : Utf8.decode (List.replicate count 0x5B) = .ok (List.replicate count '[') := by
  have goesOn : ∀ position done,
      Utf8.decode.go .between position done (List.replicate count 0x5B)
      = .ok (done.reverse ++ List.replicate count '[') := by
    induction count with
    | zero => intro _ done; simp [Utf8.decode.go]
    | succ count ih =>
        intro position done
        have step : Utf8.decode.go .between position done (List.replicate (count + 1) 0x5B)
            = Utf8.decode.go .between (position + 1) ('[' :: done) (List.replicate count 0x5B) :=
          rfl
        rw [step, ih]
        simp [List.replicate_succ]
  exact goesOn 0 []

/-- The line that is sent for a reply. -/
def Reply.line (reply : Reply) : String := reply.response.text ++ "\n"

namespace Service

/-- (service.Answers line reply next) holds if the reply to a line leaves the next service: it is
what the service replies to the request in the line, or says why there is no reply to it.
-/
inductive Answers (service : Service) (line : List UInt8) : Reply → Service → Prop
  | malformed {message} (unread : readRequest service.room line = .error (.malformed message))
    : Answers service line (refusal false ("Invalid request: " ++ message)) service
  | replied {request fuel reply next} (reads : readRequest service.room line = .ok request)
    (handled : service.handle fuel request = some (.ok reply, next))
    : Answers service line reply next
  | survived {request fuel fault message next}
    (reads : readRequest service.room line = .ok request)
    (handled : service.handle fuel request = some (.error fault, next))
    (survives : survivable? fault = some message)
    : Answers service line (refusal false ("Invalid request: " ++ message)) next

/-- (service.ExitsOn line) holds if the request in the line runs into an exit. -/
def ExitsOn (service : Service) (line : List UInt8) : Prop :=
  ∃ request, readRequest service.room line = .ok request ∧ service.Exits request

/-- (service.FailsOn line fault next) holds if a line comes to a fault that ends the connection
without a reply and leaves the next service.
-/
inductive FailsOn (service : Service) (line : List UInt8) : RequestFault → Service → Prop
  /-- There is no room to read the line. -/
  | tooDeep {call left} (unread : readRequest service.room line = .error (.tooDeep call left))
    : FailsOn service line (.tooDeep call left) service
  /-- The code is no text. -/
  | noText {request code} (reads : readRequest service.room line = .ok request)
    (asks : request.Asks code) (other : ∀ text, code ≠ .str text)
    : FailsOn service line (.codeNotText code.typeName)
        { service with session := clearOutput service.session }
  /-- There is no room to list the code. -/
  | unlisted {request code last} (reads : readRequest service.room line = .ok request)
    (asks : request.Asks (.str code)) (unlisted : service.Unlisted code last)
    : FailsOn service line (.failure (.listing .tooDeep)) { service with session := last }

/-- (service.Serves lines replies ended last) holds if the replies are the answers to the lines in
order, and leave the last service. All lines are answered, up to the first that exits if one does,
or a connection ends at the first line that gets no reply.
-/
inductive Serves : Service → List (List UInt8) → List Reply → Option ConnectionEnd → Service → Prop
  | done {service}
    : Serves service [] [] none service
  | answered {service line reply next lines replies ended last}
    (answers : service.Answers line reply next) (stays : ¬service.ExitsOn line)
    (serves : Serves next lines replies ended last)
    : Serves service (line :: lines) (reply :: replies) ended last
  | exited {service line reply last lines} (answers : service.Answers line reply last)
    (exits : service.ExitsOn line)
    : Serves service (line :: lines) [reply] (some .hungUp) last
  | failed {service line fault last lines} (fails : service.FailsOn line fault last)
    : Serves service (line :: lines) [] (some (.fault fault)) last

variable {service next last : Service} {line : List UInt8} {reply : Reply}

theorem Answers.hangUp_iff (answers : service.Answers line reply next)
    : reply.hangUp = true ↔ service.ExitsOn line := by
  cases answers with
  | malformed unread => simp [ExitsOn, unread, refusal]
  | replied reads handled => simp [ExitsOn, reads, exits_iff handled]
  | survived reads handled survives => simp [ExitsOn, reads, exits_iff handled, refusal]

/-- With enough fuel an answer is sent. -/
theorem Answers.takeLine (answers : service.Answers line reply next) (filled : line ≠ [])
    (sent : List String)
    : ∃ enough, ∀ fuel, enough ≤ fuel
        → Connection.takeLine fuel { service, sent } line
          = some {
              service := next
              sent := reply.line :: sent
              ended := if reply.hangUp then some .hungUp else none
            } := by
  have filled : ¬line.isEmpty = true := by simpa using filled
  cases answers with
  | malformed unread =>
      refine ⟨0, fun fuel _ => ?_⟩
      rw [Connection.takeLine, if_neg filled, unread]
      rfl
  | @replied request enough _ _ reads handled =>
      refine ⟨enough, fun fuel large => ?_⟩
      rw [Connection.takeLine, if_neg filled, reads]
      simp only [handle_mono handled large]
      rfl
  | @survived request enough fault message _ reads handled survives =>
      refine ⟨enough, fun fuel large => ?_⟩
      rw [Connection.takeLine, if_neg filled, reads]
      simp only [handle_mono handled large, meet, survives]
      rfl

theorem Answers.kept (answers : service.Answers line reply next)
    : next.room = service.room ∧ next.session.listsCode = service.session.listsCode := by
  cases answers with
  | malformed => exact ⟨rfl, rfl⟩
  | replied _ handled | survived _ handled => exact handle_kept handled

/-- A fault that ends a connection does so with any fuel. -/
theorem FailsOn.takeLine {fault : RequestFault} (fails : service.FailsOn line fault next)
    (filled : line ≠ []) (fuel : Nat) (sent : List String)
    : Connection.takeLine fuel { service, sent } line
      = some { service := next, sent, ended := some (.fault fault) } := by
  have filled : ¬line.isEmpty = true := by simpa using filled
  rw [Connection.takeLine, if_neg filled]
  cases fails with
  | tooDeep unread =>
      rw [unread]
      rfl
  | noText reads asks other =>
      rw [reads]
      simp only [handle_of_asks_other asks other]
      rfl
  | unlisted reads asks unlisted =>
      rw [reads]
      simp only [handle_of_asks_text asks, evaluate, unlisted.ends]
      rfl

/-- (Deep room line) holds if a line opens as many brackets as there is room, or up to two fewer: a
report nests three calls, and finds no room where two are left.
-/
def Deep (room : Nat) (line : List UInt8) : Prop :=
  ∃ text, Utf8.decode line = .ok text ∧ room ≤ Json.openings text + 2

/-- A line that is not read is no JSON, or there is no room to read it. -/
theorem readRequest_error {room : Nat} {fault : RequestFault}
    (unread : readRequest room line = .error fault)
    : (∃ message, fault = .malformed message)
      ∨ (∃ call left, fault = .tooDeep call left) ∧ Deep room line := by
  rw [readRequest] at unread
  split at unread
  · cases unread; exact .inl ⟨_, rfl⟩
  · next text decoded =>
      split at unread
      · cases unread
      · cases unread; exact .inl ⟨_, rfl⟩
      · cases unread; exact .inl ⟨_, rfl⟩
      · next call left deep =>
          cases unread
          obtain ⟨full, nested⟩ := Json.room_of_tooDeep deep
          have most : call.depth ≤ 3 := by cases call <;> decide
          exact .inr ⟨⟨_, _, rfl⟩, text, decoded, by omega⟩

/-- A service fails on code that is no text, where it lists code, and on lines that are deep. -/
theorem FailsOn.cause {fault : RequestFault} (fails : service.FailsOn line fault next)
    : (∃ type, fault = .codeNotText type)
      ∨ (fault = .failure (.listing .tooDeep) ∧ service.session.listsCode = true)
      ∨ (∃ call left, fault = .tooDeep call left) ∧ Deep service.room line := by
  cases fails with
  | tooDeep unread =>
      rcases readRequest_error unread with ⟨_, other⟩ | deep
      · cases other
      · exact .inr (.inr deep)
  | noText => exact .inl ⟨_, rfl⟩
  | unlisted _ _ unlisted => exact .inr (.inl ⟨rfl, unlisted.lists⟩)

/-- A service fails on more brackets than it has room for. -/
theorem failsOn_brackets (service : Service)
    : service.FailsOn (List.replicate (service.room + 1) 0x5B) (.tooDeep .array 0) service := by
  have deep := Json.read_brackets service.room []
  rw [List.append_nil] at deep
  refine .tooDeep ?_
  rw [readRequest, Utf8.decode_brackets]
  simp only [deep]

/-- A sound service answers a line, unless it fails on it or runs forever. -/
theorem Sound.answers (sound : service.Sound) (line : List UInt8)
    : (∃ reply next, service.Answers line reply next ∧ next.Sound)
      ∨ (∃ fault next, service.FailsOn line fault next)
      ∨ ∃ request, readRequest service.room line = .ok request ∧ service.RunsForever request := by
  cases reads : readRequest service.room line with
  | error fault =>
      rcases readRequest_error reads with ⟨message, rfl⟩ | ⟨⟨call, left, rfl⟩, _⟩
      · exact .inl ⟨_, service, .malformed reads, sound⟩
      · exact .inr (.inl ⟨_, service, .tooDeep reads⟩)
  | ok request =>
      rcases exists_handle service request with ⟨fuel, ⟨result, next⟩, handled⟩ | forever
      · obtain ⟨soundNext, faults⟩ := sound.handle handled
        cases result with
        | ok reply => exact .inl ⟨reply, next, .replied reads handled, soundNext⟩
        | error fault =>
            rcases faults fault rfl with ⟨message, survives⟩ | ⟨code, asks, other⟩
              | ⟨code, last, asks, unlisted⟩
            · exact .inl ⟨_, next, .survived reads handled survives, soundNext⟩
            · exact .inr (.inl ⟨_, _, .noText reads asks other⟩)
            · exact .inr (.inl ⟨_, _, .unlisted reads asks unlisted⟩)
      · exact .inr (.inr ⟨request, rfl, forever⟩)

-----------------------------------------------------------------------------------------
-- Lines, one after another
-----------------------------------------------------------------------------------------

variable {lines : List (List UInt8)} {replies : List Reply} {ended : Option ConnectionEnd}

/-- A sound service serves all lines, or comes to one that runs forever, by induction on them. -/
theorem Sound.serves (sound : service.Sound) (lines : List (List UInt8))
    : (∃ replies ended last, service.Serves lines replies ended last)
      ∨ ∃ front line back replies last request,
          lines = front ++ line :: back
          ∧ service.Serves front replies none last
          ∧ readRequest last.room line = .ok request
          ∧ last.RunsForever request := by
  induction lines generalizing service with
  | nil => exact .inl ⟨[], none, service, .done⟩
  | cons line lines ih =>
      rcases sound.answers line with ⟨reply, next, answers, soundNext⟩ | ⟨fault, next, fails⟩
        | ⟨request, reads, forever⟩
      · by_cases exits : service.ExitsOn line
        · exact .inl ⟨_, _, _, .exited answers exits⟩
        · rcases ih soundNext with ⟨replies, ended, last, serves⟩
            | ⟨front, line', back, replies, last, request, rfl, serves, reads, forever⟩
          · exact .inl ⟨_, _, _, .answered answers exits serves⟩
          · exact .inr ⟨line :: front, line', back, reply :: replies, last, request, rfl,
              .answered answers exits serves, reads, forever⟩
      · exact .inl ⟨_, _, _, .failed fails⟩
      · exact .inr ⟨[], line, lines, [], service, request, rfl, .done, reads, forever⟩

/-- A service fails on lines as on one of them, by induction on how they are served. -/
theorem Serves.cause (serves : service.Serves lines replies ended last) {fault : RequestFault}
    (fails : ended = some (.fault fault))
    : (∃ type, fault = .codeNotText type)
      ∨ (fault = .failure (.listing .tooDeep) ∧ service.session.listsCode = true)
      ∨ (∃ call left, fault = .tooDeep call left) ∧ ∃ line ∈ lines, Deep service.room line := by
  induction serves with
  | done => cases fails
  | answered answers _ _ ih =>
      -- Room and listing are those of the service that the answer leaves.
      obtain ⟨room, lists⟩ := answers.kept
      rw [room, lists] at ih
      rcases ih fails with noText | listed | ⟨tooDeep, line, member, deep⟩
      · exact .inl noText
      · exact .inr (.inl listed)
      · exact .inr (.inr ⟨tooDeep, line, List.mem_cons_of_mem _ member, deep⟩)
  | exited => cases fails
  | failed failsHere =>
      cases fails
      rcases failsHere.cause with noText | listed | ⟨tooDeep, deep⟩
      · exact .inl noText
      · exact .inr (.inl listed)
      · exact .inr (.inr ⟨tooDeep, _, List.mem_cons_self .., deep⟩)

/-- With enough fuel a connection takes lines as they are served, by induction on how they are. -/
theorem Serves.takes (serves : service.Serves lines replies ended last)
    (filled : ∀ line ∈ lines, line ≠ []) (sent : List String)
    : ∃ enough, ∀ fuel, enough ≤ fuel
        → lines.foldlM (offerLine fuel) { service, sent }
          = some {
              service := last
              sent := (replies.map Reply.line).reverse ++ sent
              ended
            } := by
  induction serves generalizing sent with
  | done => exact ⟨0, fun _ _ => rfl⟩
  | @answered service line reply next lines replies ended last answers stays _ ih =>
      obtain ⟨here, later⟩ := List.forall_mem_cons.mp filled
      obtain ⟨first, takes⟩ := answers.takeLine here sent
      obtain ⟨rest, takesRest⟩ := ih later (reply.line :: sent)
      have remains : reply.hangUp = false := by
        rw [← Bool.not_eq_true, answers.hangUp_iff]
        exact stays
      refine ⟨max first rest, fun fuel large => ?_⟩
      rw [List.foldlM_cons, offerLine, if_neg (by simp), takes fuel (by omega), remains]
      show lines.foldlM (offerLine fuel) { service := next, sent := reply.line :: sent } = _
      rw [takesRest fuel (by omega), List.map_cons, List.reverse_cons, List.append_assoc]
      rfl
  | @exited service line reply last lines answers exits =>
      obtain ⟨enough, takes⟩ := answers.takeLine (List.forall_mem_cons.mp filled).1 sent
      have leaves : reply.hangUp = true := answers.hangUp_iff.mpr exits
      refine ⟨enough, fun fuel large => ?_⟩
      rw [List.foldlM_cons, offerLine, if_neg (by simp), takes fuel large, leaves]
      exact foldlM_offerLine_of_ended rfl lines
  | @failed service line fault last lines fails =>
      refine ⟨0, fun fuel _ => ?_⟩
      rw [List.foldlM_cons, offerLine, if_neg (by simp),
        fails.takeLine (List.forall_mem_cons.mp filled).1]
      exact foldlM_offerLine_of_ended rfl lines

end Service

-----------------------------------------------------------------------------------------
-- Fuel
-----------------------------------------------------------------------------------------

namespace Connection

variable {fuel more : Nat} {connection next : Connection}

theorem takeLine_mono {line : List UInt8} (took : connection.takeLine fuel line = some next)
    (enough : fuel ≤ more)
    : connection.takeLine more line = some next := by
  rw [takeLine] at took ⊢
  split at took
  · next empty => rw [if_pos empty]; exact took
  · next filled =>
      rw [if_neg filled]
      split at took
      · exact took
      · split at took
        · cases took
        · next handled => simp only [Service.handle_mono handled enough]; exact took
        · next handled => simp only [Service.handle_mono handled enough]; exact took

/-- More fuel changes nothing, by induction on the lines. -/
theorem foldlM_offerLine_mono {lines : List (List UInt8)}
    (took : lines.foldlM (offerLine fuel) connection = some next) (enough : fuel ≤ more)
    : lines.foldlM (offerLine more) connection = some next := by
  induction lines generalizing connection with
  | nil => exact took
  | cons line lines ih =>
      rw [List.foldlM_cons] at took ⊢
      obtain ⟨middle, first, rest⟩ := Option.bind_eq_some_iff.mp took
      have same : offerLine more connection line = some middle := by
        rw [offerLine] at first ⊢
        split at first
        · next ended => rw [if_pos ended]; exact first
        · next going => rw [if_neg going]; exact takeLine_mono first enough
      rw [same]
      exact ih rest

end Connection

-----------------------------------------------------------------------------------------
-- Whole streams
-----------------------------------------------------------------------------------------

namespace Service

variable {service last : Service} {lines : List (List UInt8)} {replies : List Reply}
  {ended : Option ConnectionEnd} {fuel : Nat} {sent : List String} {pieces : List (List UInt8)}

theorem Serves.took (serves : service.Serves lines replies ended last)
    (filled : ∀ line ∈ lines, line ≠ []) {connection : Connection}
    (took : lines.foldlM (offerLine fuel) { service, sent } = some connection)
    : connection
      = { service := last, sent := (replies.map Reply.line).reverse ++ sent, ended } := by
  obtain ⟨enough, takes⟩ := serves.takes filled sent
  have first := foldlM_offerLine_mono took (Nat.le_max_left fuel enough)
  have second := takes (max fuel enough) (Nat.le_max_right fuel enough)
  exact Option.some.inj (first.symm.trans second)

theorem requestLines_filled (stream : List UInt8)
    : ∀ line ∈ requestLines stream, line ≠ [] := by
  intro line member
  simpa using (List.mem_filter.mp member).2

/-- A connection whose requests are served comes to their replies, however its stream is cut. -/
theorem Serves.received (serves : service.Serves (requestLines pieces.flatten) replies ended last)
    (nonempty : ∀ piece ∈ pieces, piece ≠ [])
    : (∃ enough, ∀ fuel, enough ≤ fuel → (receive fuel { service } pieces).isSome = true)
      ∧ ∀ fuel connection unread,
          receive fuel { service } pieces = some (connection, unread)
          → connection.service = last
            ∧ connection.sent.reverse = replies.map Reply.line
            ∧ connection.ended = ended := by
  have filled := requestLines_filled pieces.flatten
  constructor
  · obtain ⟨enough, takes⟩ := serves.takes filled []
    refine ⟨enough, fun fuel large => ?_⟩
    have taken := receive_eq_requestLines nonempty fuel service
    rw [takes fuel large] at taken
    obtain ⟨received, came, _⟩ := Option.map_eq_some_iff.mp taken
    rw [came]
    rfl
  · intro fuel connection unread received
    have taken := receive_eq_requestLines nonempty fuel service
    rw [received] at taken
    have same : connection.forgetLine = _ := serves.took filled taken.symm
    have sent : connection.sent = (replies.map Reply.line).reverse ++ [] :=
      congrArg Connection.sent same
    exact ⟨congrArg Connection.service same, by simp [sent], congrArg Connection.ended same⟩

end Service

end StackText
