import StackText.Code.Listing
import StackText.Files.Basic
import StackText.Machine.Basic
import StackText.Reader.Basic
import StackText.Settings

/-! A session: a reader and a machine over one store, so that variables and operands outlive each
piece of code. Code comes whole, or line by line.
-/

namespace StackText

/-- Why a piece of code did not run to its end. -/
inductive Failure where
  | read (fault : ReadFault)
  | stop (stop : Stop)
  | listing (fault : ListingFault)
  | file (fault : FileFault)
  deriving DecidableEq, Repr

/-- An error of the language as it is reported: its kind and its wording. -/
structure Report where
  kind : ErrorKind
  message : String
  deriving DecidableEq, Repr

/-- The line that reports an error. -/
def Report.text (report : Report) : String := report.kind.name ++ ": " ++ report.message

/-- The report of a failure, if it is an error of the language. -/
def Failure.report? : Failure → Option Report
  | .read (.incomplete what) => some ⟨.incompleteInput, what.message⟩
  | .read (.malformed what) => some ⟨.malformedText, what.message⟩
  | .read (.code fault) => some ⟨.general, fault.message⟩
  | .stop (.fault fault) => some ⟨fault.kind, fault.message⟩
  | .listing (.unallocated id) => some ⟨.general, (Fault.unallocated id).message⟩
  | .read (.numeral _) | .stop _ | .listing (.code _) | .listing .tooDeep | .file _ => none

/-- A session. -/
structure Session where
  machine : Machine
  reader : Reader := {}
  /-- Code is listed before it runs. -/
  listsCode : Bool := false
  /-- Text and stack are traced. -/
  traces : Bool := false
  /-- Prompts, traces, listings and reports. -/
  log : String := ""

namespace Session

/-- The name that the text of a loaded file is bound to. -/
def bufferName : String := "buffer"

/-- A new session. -/
def new (settings : Settings) (console : Console) : Session :=
  {
    machine := { store := .withBuiltins, console, depthLimit := settings.callDepth }
    listsCode := settings.listsCode
    traces := settings.traces
  }

/-- The operands, the first pushed first. -/
def operands (s : Session) : List Value := s.machine.stack.reverse

/-- Writes to the log. -/
def note (s : Session) (text : String) : Session := { s with log := s.log ++ text }

/-- Clears the reader. -/
def resetReader (s : Session) : Session := { s with reader := .fresh }

/-- Binds a name to a value. -/
def define (s : Session) (name : String) (v : Value) : Nat × Session :=
  let (id, store) := s.machine.store.define name v
  (id, { s with machine := { s.machine with store } })

/-- Compiles a piece of text. -/
def compile (s : Session) (text : List Char) (final : Bool) : Except ReadFault Chunk × Session :=
  let compiled := s.reader.compile s.machine.store text final
  (compiled.result, {
    s with
    reader := compiled.reader
    machine := { s.machine with store := compiled.store }
  })

/-- The line in front of a listing. It is written before the listing is made. -/
def listingHead : String := "=== DISASM ===\n"

/-- The listing of code in the log, between two lines that mark it. -/
def listCode (s : Session) (chunk : Chunk) : Except ListingFault Session :=
  if s.listsCode then
    match chunk.listing (some s.machine.store) 0 with
    | .ok text => .ok (s.note (listingHead ++ text ++ "\n=== END DISASM ===\n"))
    | .error fault => .error fault
  else .ok s

/-- The trace of the stack in the log. -/
def traceStack (s : Session) : Session :=
  if s.traces then s.note ("stack: [" ++ " ".intercalate (s.operands.map Value.render) ++ "]\n")
  else s

/-- The trace of the text in the log. -/
def traceText (s : Session) (text : List Char) : Session :=
  if s.traces then s.note ("code: " ++ Text.quoted (String.ofList text) ++ "\n") else s

/-- Runs code. The result is the last value on the stack. None means that the fuel did not
suffice; this holds of all functions below that take fuel.
-/
def run (fuel : Nat) (s : Session) (chunk : Chunk) : Option (Except Failure Value × Session) :=
  match s.listCode chunk with
  | .error fault => some (.error (.listing fault), s.note listingHead)
  | .ok s =>
      match s.machine.runChunk fuel chunk with
      | none => none
      | some ⟨some stop, machine⟩ => some (.error (.stop stop), { s with machine })
      | some ⟨none, machine⟩ => some (.ok machine.top, { s with machine }.traceStack)

/-- Compiles and runs a piece of text. -/
def eval (fuel : Nat) (s : Session) (text : List Char) (final : Bool)
    : Option (Except Failure Value × Session) :=
  match (s.traceText text).compile text final with
  | (.error fault, s) => some (.error (.read fault), s)
  | (.ok chunk, s) => s.run fuel chunk

/-- Takes one line. The result says whether the code is complete, and has been run. -/
def feed (fuel : Nat) (s : Session) (line : List Char)
    : Option (Except Failure Bool × Session) :=
  match s.compile line false with
  | (.error (.incomplete _), s) => some (.ok false, s)
  | (.error fault, s) => some (.error (.read fault), s)
  | (.ok chunk, s) =>
      match s.run fuel chunk with
      | none => none
      | some (.ok _, s) => some (.ok true, s)
      | some (.error failure, s) => some (.error failure, s)

/-- Compiles and runs a file. -/
def runFile (fuel : Nat) (s : Session) (files : Files) (path : Path)
    : Option (Except Failure Value × Session) :=
  match files.text path with
  | .ok text => s.eval fuel text true
  | .error fault => some (.error (.file fault), s)

/-- Binds the text of a file to the buffer name. -/
def loadBuffer (s : Session) (files : Files) (path : Path) : Except FileFault Session :=
  match files.text path with
  | .ok text => .ok (s.define bufferName (.str (String.ofList text))).2
  | .error fault => .error fault

-----------------------------------------------------------------------------------------
-- The dialogue with a user
-----------------------------------------------------------------------------------------

/-- Where a dialogue takes its lines from. -/
inductive Lines where
  /-- The input that the program reads from as well. -/
  | console
  /-- A text of its own. -/
  | text (rest : List Char)

/-- The number of characters that are left for lines. -/
def charactersLeft (s : Session) : Lines → Nat
  | .console => s.machine.console.input.length
  | .text rest => rest.length

/-- The next line, if there is one. -/
def nextLine (s : Session) : Lines → Option (List Char) × Lines × Session
  | .console =>
      let (line, console) := s.machine.console.readLine
      (line, .console, { s with machine := { s.machine with console } })
  | .text rest =>
      let (line, rest) := Text.nextLine rest
      (if line.isEmpty then none else some line, .text rest, s)

/-- The prompt shows whether a block or a string is open. -/
def prompt (s : Session) : Session :=
  s.note (if s.reader.isPending then ". " else "> ")

/-- The end of a dialogue drops what is still open. -/
def closeDialogue (s : Session) : Session :=
  if s.reader.isPending then (s.note "Incomplete input discarded\n").resetReader else s

/-- Takes lines until they end. An error of the language is reported and clears the reader; any
other failure ends the dialogue. Each round but the last takes at least one character.
-/
def dialogueFor (fuel : Nat) : Nat → Session → Lines → Option (Except Failure Unit × Session)
  | 0, s, _ => some (.ok (), s)
  | rounds + 1, s, lines =>
      match s.prompt.nextLine lines with
      | (none, .console, s) =>
          if s.machine.console.interrupts then some (.error (.stop .interrupted), s)
          else some (.ok (), s.closeDialogue)
      | (none, .text _, s) => some (.ok (), s.closeDialogue)
      | (some line, lines, s) =>
          match s.feed fuel line with
          | none => none
          | some (.ok true, s) => dialogueFor fuel rounds s lines
          | some (.ok false, s) => dialogueFor fuel rounds (s.note "Incomplete\n") lines
          | some (.error failure, s) =>
              match failure.report? with
              | some report =>
                  dialogueFor fuel rounds (s.resetReader.note (report.text ++ "\n")) lines
              | none => some (.error failure, s)

/-- Takes lines until they end. -/
def dialogue (fuel : Nat) (s : Session) (lines : Lines)
    : Option (Except Failure Unit × Session) :=
  dialogueFor fuel (s.charactersLeft lines + 1) s lines

end Session

end StackText
