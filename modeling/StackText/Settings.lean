import StackText.Files.Basic
import StackText.Number.Literal
import StackText.Text.Blank

/-! Settings from environment variables. -/

namespace StackText

/-- The environment variables that are set. -/
abbrev Settings := List (String × String)

namespace Settings

/-- The value of a variable; a variable that is not set is empty. -/
def value (settings : Settings) (name : String) : String :=
  (settings.lookup name).getD ""

/-- The parts of a text between colons. -/
def splitColons (text : List Char) : List (List Char) :=
  go [] [] text
where
  go (done : List (List Char)) (part : List Char) : List Char → List (List Char)
    | [] => (part.reverse :: done).reverse
    | ':' :: rest => go (part.reverse :: done) [] rest
    | c :: rest => go done (c :: part) rest

/-- A list of paths with colons between them; blanks around a path and empty paths do not count.
The defaults stand in for an empty variable only.
-/
def paths (settings : Settings) (name : String) (defaults : List Path) : List Path :=
  let text := settings.value name
  if text = "" then defaults
  else
    let parts := (splitColons text.toList).map (Text.trimBy Text.isBlank)
    (parts.filter (!·.isEmpty)).map fun part => Path.ofString (String.ofList part)

/-- A flag is set unless its variable is empty or says no. -/
def flag (settings : Settings) (name : String) : Bool :=
  let word := (Text.trim (settings.value name)).toLower
  !(["", "0", "false", "no", "off"].contains word)

-----------------------------------------------------------------------------------------
-- Whole numbers
-----------------------------------------------------------------------------------------

/-- (isMargin c) holds of the blanks that may stand around a whole number. -/
def isMargin (c : Char) : Bool :=
  Text.isBlank c && !(0x1C ≤ c.toNat && c.toNat ≤ 0x1F)

/-- The values of digits of any script, where a single underscore may stand between two digits. -/
def digitValues? : List Char → Option (List Nat)
  | [] => none
  | [c] => (Text.digitValue? c).map ([·])
  | c :: '_' :: rest => do return (← Text.digitValue? c) :: (← digitValues? rest)
  | c :: rest => do return (← Text.digitValue? c) :: (← digitValues? rest)

/-- Reads a whole number with an optional sign and blanks around it. -/
def wholeNumber? (text : String) : Option Int :=
  let (negative, digits) := Numeral.splitSign (Text.trimBy isMargin text.toList)
  match digitValues? digits with
  | some values =>
      if Numeral.digitLimit < values.length then none
      else some (Numeral.signed negative (Text.ofDigitValues values))
  | none => none

/-- The call depth when none is set. -/
def defaultCallDepth : Nat := 10000

/-- The greatest number of active calls. What is not a positive number counts as not set. -/
def callDepth (settings : Settings) : Nat :=
  match wholeNumber? (settings.value "CK_MAX_CALL_DEPTH") with
  | some n => if 0 < n then n.toNat else defaultCallDepth
  | none => defaultCallDepth

/-- The listing of code before it runs is asked for. -/
def listsCode (settings : Settings) : Bool := settings.flag "CK_DISASM"

/-- The trace of text and stack is asked for. -/
def traces (settings : Settings) : Bool := settings.flag "CK_TRACE"

/-- The directories that are searched for scripts. -/
def scriptRoots (settings : Settings) : List Path :=
  settings.paths "CK_PATH" [Path.ofString "."]

/-- The path of a script: as it is given if there is such a file, else the first file of that
name under the script directories, else as it is given.
-/
def script (settings : Settings) (files : Files) (name : String) : Path :=
  let path := Path.ofString name
  if (files path).isFile || path.isAbsolute then path
  else
    let candidates := settings.scriptRoots.map (·.join path)
    (candidates.find? fun candidate => (files candidate).isFile).getD path

end Settings

end StackText
