import StackText.CommandLine.Arguments
import StackText.CommandLine.Sources
import StackText.Session

/-! The program: runs the code that its arguments name, then takes lines from the user. -/

namespace StackText.CommandLine

/-- The usage line. -/
def usage : String := "usage: ck [-h] [-i] [-c CODE] [-f FILE] [-v] [FILE ...]\n"

/-- The help text. -/
def helpText : String :=
  usage ++ "\n"
    ++ "A simple & light-weight stack-based text processor\n\n"
    ++ "positional arguments:\n"
    ++ "  FILE           script files\n\n"
    ++ "options:\n"
    ++ "  -h, --help     show this help message and exit\n"
    ++ "  -i             interactive mode (after running any code given)\n"
    ++ "  -c CODE        inline code (may be repeated); code and script files run in\n"
    ++ "                 command line order\n"
    ++ "  -f FILE        file for initial buffer content\n"
    ++ "  -v, --version  show program's version number and exit\n"

/-- The version line. -/
def versionText : String := "ck 0.1.0\n"

/-- How the program ends. -/
inductive Ending where
  /-- By itself, with a status. -/
  | status (n : Nat)
  /-- Because its arguments or its code asked for it, with an exit code. -/
  | exit (code : Int)
  /-- By a failure that it does not handle. -/
  | failure (failure : Failure)

/-- How the program ended and all that it wrote. -/
structure Result where
  ending : Ending
  output : String
  log : String

/-- What the program depends on besides its arguments. -/
structure World where
  settings : Settings
  files : Files
  console : Console

/-- The end of a program that ran a session. -/
def finish (s : Session) (ending : Ending) : Result :=
  ⟨ending, s.machine.console.output, s.log⟩

/-- The end by a failure. An interruption by the user is a normal end. -/
def fail (s : Session) : Failure → Result
  | .stop (.exit code) => finish s (.exit code)
  | .stop .interrupted =>
      let console := s.machine.console.write "Interrupted\n"
      finish { s with machine := { s.machine with console } } (.status 0)
  | failure => finish s (.failure failure)

/-- The name of a source in reports; inline code is numbered from one. -/
def sourceName (number : Nat) : Source → String
  | .file name => name
  | .code _ => s!"<arg-{number}>"

/-- What the log says of a failed source, if the program handles the failure. -/
def complaint? (number : Nat) (source : Source) (failure : Failure) : Option String :=
  match failure, failure.report? with
  | .file fault, _ =>
      fault.cause.systemError?.map fun (_, words) =>
        s!"Failed to open file: {sourceName number source} ({words})\n"
  | _, some report => some (sourceName number source ++ ": " ++ report.text ++ "\n")
  | _, none => none

/-- Runs sources in order up to the first that fails, and returns the session or the end of the
program. The number counts inline code.
-/
def runSources (fuel : Nat) (world : World) (number : Nat) (s : Session)
    : List Source → Option (Except Result Session)
  | [] => some (.ok s)
  | source :: rest =>
      let number := match source with
        | .code _ => number + 1
        | .file _ => number
      let ran := match source with
        | .code text => s.eval fuel text.toList true
        | .file name =>
            s.runFile fuel world.files (world.settings.script world.files name)
      match ran with
      | none => none
      | some (.ok _, s) => runSources fuel world number s rest
      | some (.error failure, s) =>
          match complaint? number source failure with
          | some text => some (.error (finish (s.note text) (.status 1)))
          | none => some (.error (fail s failure))

/-- Binds the buffer to the text of the chosen file, if one is chosen. -/
def loadBuffer (world : World) (choices : Choices) (s : Session) : Except Result Session :=
  if choices.buffer = "" then .ok s
  else
    match s.loadBuffer world.files (Path.ofString choices.buffer) with
    | .ok s => .ok s
    | .error fault =>
        match fault.cause.systemError? with
        | some _ =>
            let text := s!"Failed to load buffer file: {choices.buffer}\n"
            .error (finish (s.note text) (.status 1))
        | none => .error (fail s (.file fault))

/-- Runs what the arguments choose. Lines are taken from the user if there is no code to run, or
if that is chosen.
-/
def runChoices (fuel : Nat) (world : World) (arguments : List String) (choices : Choices)
    : Option Result :=
  let start := Session.new world.settings world.console
  match loadBuffer world choices start with
  | .error result => some result
  | .ok s =>
      match runSources fuel world 0 s (sources arguments) with
      | none => none
      | some (.error result) => some result
      | some (.ok s) =>
          let hasCode := !choices.scripts.isEmpty || !choices.codes.isEmpty
          if hasCode && !choices.interactive then some (finish s (.status 0))
          else
            match s.dialogue fuel .console with
            | none => none
            | some (.ok _, s) => some (finish s (.status 0))
            | some (.error failure, s) => some (fail s failure)

/-- Runs the program. None means that the fuel did not suffice. -/
def run (fuel : Nat) (world : World) (arguments : List String) : Option Result :=
  match choices arguments with
  | .error .help => some ⟨.exit 0, helpText, ""⟩
  | .error .version => some ⟨.exit 0, versionText, ""⟩
  | .error (.fault fault) => some ⟨.exit 2, "", usage ++ "ck: error: " ++ fault.message ++ "\n"⟩
  | .ok choices => runChoices fuel world arguments choices

end StackText.CommandLine
