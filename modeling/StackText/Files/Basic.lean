import StackText.Files.Path
import StackText.Text.Lines
import StackText.Text.Utf8

/-! Files: what a path leads to, and the text of a file. -/

namespace StackText

/-- What a path leads to. -/
inductive FileEntry where
  | file (bytes : List UInt8)
  | directory
  | missing
  /-- A component before the last one is a file. -/
  | throughFile
  /-- The path has a character that no path may have. -/
  | unusable
  deriving DecidableEq, Repr

/-- The files that a program can see, by path. -/
abbrev Files := Path → FileEntry

/-- (entry.isFile) holds of files. -/
def FileEntry.isFile : FileEntry → Bool
  | .file _ => true
  | _ => false

/-- Why a file has no text. -/
inductive FileCause where
  | missing
  | directory
  | throughFile
  | unusable
  | encoding (fault : Utf8.Fault)
  deriving DecidableEq, Repr

/-- A file without a text. -/
structure FileFault where
  path : Path
  cause : FileCause
  deriving DecidableEq, Repr

/-- The number and the words of the causes that the file system reports. -/
def FileCause.systemError? : FileCause → Option (Nat × String)
  | .missing => some (2, "No such file or directory")
  | .directory => some (21, "Is a directory")
  | .throughFile => some (20, "Not a directory")
  | .unusable | .encoding _ => none

/-- The wording of a fault. -/
def FileFault.message (fault : FileFault) : String :=
  match fault.cause, fault.cause.systemError? with
  | _, some (number, words) =>
      s!"[Errno {number}] {words}: " ++ Text.quoted fault.path.text
  | .encoding fault, none => fault.message
  | _, none => "embedded null byte"

/-- The text of a file, with a line feed for every kind of line end. -/
def Files.text (files : Files) (path : Path) : Except FileFault (List Char) :=
  match files path with
  | .file bytes =>
      match Utf8.decode bytes with
      | .ok text => .ok (Text.unifyLineEnds text)
      | .error fault => .error ⟨path, .encoding fault⟩
  | .directory => .error ⟨path, .directory⟩
  | .missing => .error ⟨path, .missing⟩
  | .throughFile => .error ⟨path, .throughFile⟩
  | .unusable => .error ⟨path, .unusable⟩

end StackText
