import StackText.CommandLine.Program

/-! The command. It gathers what the program depends on, runs it, and writes what it wrote. The
input is read to its end before the program runs.
-/

namespace StackText.Command

open StackText.CommandLine

/-- The variables that have a meaning. -/
def variableNames : List String := ["CK_PATH", "CK_MAX_CALL_DEPTH", "CK_DISASM", "CK_TRACE"]

/-- The variables that are set. -/
def readVariables : IO Settings :=
  variableNames.filterMapM fun name => do
    return (← IO.getEnv name).map ((name, ·))

/-- The paths that a run may look at: those of the scripts, as given and under the script
directories, and that of the buffer.
-/
def candidates (settings : Settings) (arguments : List String) : List Path :=
  let names := (sources arguments).filterMap fun
    | .file name => some (Path.ofString name)
    | .code _ => none
  let buffer := match choices arguments with
    | .ok choices => [Path.ofString choices.buffer]
    | .error _ => []
  let nested := names.flatMap fun path => settings.scriptRoots.map (·.join path)
  names ++ nested ++ buffer

/-- What a path leads to. -/
def readEntry (path : Path) : IO FileEntry := do
  if path.text.toList.contains '\x00' then return .unusable
  try
    let bytes ← IO.FS.readBinFile path.text
    return .file bytes.toList
  catch
    | .inappropriateType _ 21 _ => return .directory
    | .inappropriateType .. => return .throughFile
    | _ => return .missing

/-- The files that a run may look at. -/
def readFiles (paths : List Path) : IO Files := do
  let entries ← paths.mapM fun path => do return (path, ← readEntry path)
  return fun path => (entries.lookup path).getD .missing

/-- The bytes of the input up to its end. -/
partial def readBytes (input : IO.FS.Stream) (done : ByteArray) : IO ByteArray := do
  let piece ← input.read 65536
  if piece.isEmpty then return done else readBytes input (done ++ piece)

/-- Runs the program with more and more fuel until it ends. -/
partial def runToEnd (fuel : Nat) (world : World) (arguments : List String) : IO Result :=
  match run fuel world arguments with
  | some result => return result
  | none => runToEnd (2 * fuel) world arguments

/-- What is written of a failure that the program does not handle. -/
def failureText : Failure → String
  | .read (.numeral fault) | .stop (.numeral fault) => fault.message ++ "\n"
  | .file fault => fault.message ++ "\n"
  | failure => (failure.report?.map Report.text).getD "Cannot run the code" ++ "\n"

/-- The status that the system is given. Of an exit code it keeps the lowest byte. -/
def statusOf : Ending → UInt32
  | .status n => n.toUInt32
  | .exit code => (code % 256).toNat.toUInt32
  | .failure _ => 1

/-- Runs the program on the input. -/
def runOn (input : List Char) (arguments : List String) : IO UInt32 := do
  let settings ← readVariables
  let files ← readFiles (candidates settings arguments)
  let world : World := { settings, files, console := { input := Text.unifyLineEnds input } }
  let result ← runToEnd 1000000 world arguments
  (← IO.getStdout).putStr result.output
  (← IO.getStderr).putStr result.log
  match result.ending with
  | .failure failure => (← IO.getStderr).putStr (failureText failure)
  | _ => pure ()
  return statusOf result.ending

end StackText.Command

/-- Runs the command. -/
def main (arguments : List String) : IO UInt32 := do
  let bytes ← StackText.Command.readBytes (← IO.getStdin) .empty
  match StackText.Utf8.decode bytes.toList with
  | .ok input => StackText.Command.runOn input arguments
  | .error fault =>
      (← IO.getStderr).putStr (fault.message ++ "\n")
      return 1
