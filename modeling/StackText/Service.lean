import StackText.Json.Reader
import StackText.Session
import StackText.Text.Utf8

/-! A service that runs code for clients. Each line of a connection is a request in JSON and gets
one line of JSON in reply. All clients share one session; a program that ends closes only the
connection it came from.
-/

namespace StackText

/-- Why a request gets no reply of its own. -/
inductive RequestFault where
  /-- The line is not JSON. -/
  | malformed (message : String)
  /-- The line nests deeper than there is room for calls. -/
  | tooDeep (call : Json.Call) (room : Nat)
  /-- The request is no object. -/
  | notObject (type : String)
  /-- The code of the request is no text. -/
  | codeNotText (type : String)
  /-- The code met a failure that is no error of the language. -/
  | failure (failure : Failure)

/-- The wording of the faults that lie in what the request is. -/
def RequestFault.message? : RequestFault → Option String
  | .malformed message => some message
  | .notObject type => some s!"'{type}' object has no attribute 'get'"
  | .codeNotText type => some s!"can only concatenate str (not \"{type}\") to str"
  | .tooDeep .. | .failure _ => none

/-- A reply and whether the connection is closed after it. -/
structure Reply where
  response : Json
  hangUp : Bool

/-- A service. -/
structure Service where
  session : Session
  /-- How many calls may nest to read a line, or to list code. -/
  room : Nat

namespace Service

/-- A new service. Its programs have nothing to read. Of the thousand calls that may nest, eight are
active when a line is read or code is listed.
-/
def new (settings : Settings) (room : Nat := 992) : Service := ⟨Session.new settings {}, room⟩

/-- A reply to a request that did not run to its end. -/
def refusal (incomplete : Bool) (error : String) : Reply :=
  ⟨.obj [("ok", .bool false), ("incomplete", .bool incomplete), ("error", .str error)], false⟩

/-- A reply with what a program printed and left on the stack, and its exit code if it ended. -/
def success (s : Session) (exit : Option Int) : Reply :=
  let stack := s.operands.map fun v => Json.str v.render
  let exitField : List (String × Json) := exit.toList.map fun code => ("exit", .int code)
  ⟨.obj ([("ok", .bool true)] ++ exitField
    ++ [("output", .str s.machine.console.output), ("stack", .arr stack)]), exit.isSome⟩

/-- Forgets what was printed before. -/
def clearOutput (s : Session) : Session :=
  { s with machine := { s.machine with console := { s.machine.console with output := "" } } }

/-- Evaluates code for a client, whose output starts empty. Where code is listed, it does not run if
there is no room to list it.
-/
def evalFor (service : Service) (fuel : Nat) (code : String)
    : Option (Except Failure Value × Session) :=
  match ((clearOutput service.session).traceText code.toList).compile code.toList false with
  | (.error fault, s) => some (.error (.read fault), s)
  | (.ok chunk, s) =>
      if s.listsCode && service.room < chunk.listingCalls s.machine.store then
        some (.error (.listing .tooDeep), s.note Session.listingHead)
      else s.run fuel chunk

/-- Runs the code of a request. Open blocks and strings wait for the next request. -/
def evaluate (fuel : Nat) (service : Service) (code : String)
    : Option (Except RequestFault Reply × Service) :=
  match service.evalFor fuel code with
  | none => none
  | some (.ok _, s) => some (.ok (success s none), { service with session := s })
  | some (.error (.stop (.exit code)), s) =>
      some (.ok (success s (some code)), { service with session := s })
  | some (.error failure, s) =>
      match failure, failure.report? with
      | .read (.incomplete what), _ =>
          some (.ok (refusal true what.message), { service with session := s })
      | _, some report =>
          some (.ok (refusal false report.text), { service with session := s.resetReader })
      | failure, none => some (.error (.failure failure), { service with session := s })

/-- Answers a request. -/
def handle (fuel : Nat) (service : Service) (request : Json)
    : Option (Except RequestFault Reply × Service) :=
  match request with
  | .obj _ =>
      match request.field? "cmd" with
      | some (.str "eval") =>
          match (request.field? "code").getD (.str "") with
          | .str code => service.evaluate fuel code
          | code =>
              let session := clearOutput service.session
              some (.error (.codeNotText code.typeName), { service with session })
      | command =>
          some (.ok (refusal false ("Unknown cmd: " ++ (command.getD .null).display)), service)
  | other => some (.error (.notObject other.typeName), service)

end Service

-----------------------------------------------------------------------------------------
-- Connections
-----------------------------------------------------------------------------------------

/-- Why a connection is over. -/
inductive ConnectionEnd where
  /-- A program asked to end. -/
  | hungUp
  /-- A request that the connection does not survive. -/
  | fault (fault : RequestFault)

/-- A connection to a service. -/
structure Connection where
  service : Service
  /-- The bytes of the line that is being received, in reverse. -/
  line : List UInt8 := []
  /-- The lines sent, in reverse. -/
  sent : List String := []
  /-- Why the connection is over, if it is. -/
  ended : Option ConnectionEnd := none

namespace Connection

/-- (isMargin byte) holds of the blanks that may stand around a request. -/
def isMargin (byte : UInt8) : Bool := byte = 0x20 || (0x9 ≤ byte && byte ≤ 0xD)

/-- A line without the blanks at its ends. -/
def strip (line : List UInt8) : List UInt8 :=
  ((line.dropWhile isMargin).reverse.dropWhile isMargin).reverse

/-- The wording of the faults that a connection survives. -/
def survivable? : RequestFault → Option String
  | .malformed message => some message
  | .notObject type => (RequestFault.notObject type).message?
  | .failure (.read (.numeral fault)) => some fault.message
  | .failure (.stop (.numeral fault)) => some fault.message
  | _ => none

/-- The request in a line, or what is wrong with the line. -/
def readRequest (room : Nat) (line : List UInt8) : Except RequestFault Json :=
  match Utf8.decode line with
  | .error fault => .error (.malformed fault.message)
  | .ok text =>
      match Json.read room text with
      | .ok request => .ok request
      | .error (.problem what position) => .error (.malformed (what.report text position))
      | .error (.numeral fault) => .error (.malformed fault.message)
      | .error (.tooDeep call room) => .error (.tooDeep call room)

/-- Sends a reply. -/
def send (connection : Connection) (reply : Reply) : Connection :=
  { connection with
    sent := (reply.response.text ++ "\n") :: connection.sent
    ended := if reply.hangUp then some .hungUp else none
  }

/-- Replies that a line is no request. -/
def complain (connection : Connection) (message : String) : Connection :=
  connection.send (Service.refusal false ("Invalid request: " ++ message))

/-- Meets a fault. A connection that does not survive it is over, without a reply. -/
def meet (connection : Connection) (fault : RequestFault) : Connection :=
  match survivable? fault with
  | some message => connection.complain message
  | none => { connection with ended := some (.fault fault) }

/-- Takes a whole line. Empty lines are passed over. -/
def takeLine (fuel : Nat) (connection : Connection) (line : List UInt8) : Option Connection :=
  if line.isEmpty then some connection
  else
    match readRequest connection.service.room line with
    | .error fault => some (connection.meet fault)
    | .ok request =>
        match connection.service.handle fuel request with
        | none => none
        | some (.ok reply, service) => some ({ connection with service }.send reply)
        | some (.error fault, service) => some ({ connection with service }.meet fault)

/-- Takes one byte. Nothing is taken once the connection is over. -/
def takeByte (fuel : Nat) (connection : Connection) (byte : UInt8) : Option Connection :=
  if connection.ended.isSome then some connection
  else if byte = 0xA then
    { connection with line := [] }.takeLine fuel (strip connection.line.reverse)
  else some { connection with line := byte :: connection.line }

/-- Receives pieces until one is empty, none is left, or the connection is over. The result says
how many pieces were not asked for.
-/
def receive (fuel : Nat) (connection : Connection) : List (List UInt8) → Option (Connection × Nat)
  | [] => some (connection, 0)
  | piece :: rest =>
      if piece.isEmpty then some (connection, rest.length)
      else
        match piece.foldlM (takeByte fuel) connection with
        | none => none
        | some connection =>
            if connection.ended.isSome then some (connection, rest.length)
            else connection.receive fuel rest

end Connection

end StackText
