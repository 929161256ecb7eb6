import StackText.Text.Digit
import StackText.Text.Quoted

/-! The arguments of the program: which of them are options, and what they choose. Options and
script files may be mixed, so the arguments are read twice. The first reading takes the options
and leaves the rest; the second takes script files from what is left.
-/

namespace StackText.CommandLine

/-- An option of the program. -/
inductive Flag where
  | help | interactive | code | buffer | version
  deriving DecidableEq, Repr

/-- The spellings of all options. -/
def spellings : List (String × Flag) := [
  ("-h", .help), ("--help", .help), ("-i", .interactive), ("-c", .code), ("-f", .buffer),
  ("-v", .version), ("--version", .version)
]

/-- The option with a given spelling. -/
def flag? (spelling : String) : Option Flag := spellings.lookup spelling

/-- The option with a given letter. -/
def letter? (c : Char) : Option Flag := flag? (String.ofList ['-', c])

/-- All spellings of an option. -/
def Flag.title (flag : Flag) : String :=
  "/".intercalate ((spellings.filter (·.2 = flag)).map (·.1))

/-- (flag.takesArgument) holds of the options that take an argument. -/
def Flag.takesArgument : Flag → Bool
  | .code | .buffer => true
  | _ => false

/-- What is wrong with the arguments. -/
inductive ArgumentFault where
  | missingArgument (flag : Flag)
  | needlessArgument (flag : Flag) (text : String)
  | ambiguous (argument : String) (matching : List String)
  | unrecognized (arguments : List String)
  deriving DecidableEq, Repr

/-- The wording of each fault. -/
def ArgumentFault.message : ArgumentFault → String
  | .missingArgument flag => s!"argument {flag.title}: expected one argument"
  | .needlessArgument flag text =>
      s!"argument {flag.title}: ignored explicit argument " ++ Text.quoted text
  | .ambiguous argument matching =>
      let names := ", ".intercalate matching
      s!"ambiguous option: {argument} could match {names}"
  | .unrecognized arguments => "unrecognized arguments: " ++ " ".intercalate arguments

-----------------------------------------------------------------------------------------
-- The shapes of arguments
-----------------------------------------------------------------------------------------

/-- Text that belongs to an option inside its argument; the mark says that an equals sign stands
before it.
-/
structure Attached where
  marked : Bool
  text : List Char
  deriving DecidableEq, Repr

/-- The shape of an argument. -/
inductive Shape where
  /-- An option, by letter or by a long name, with the text attached to it. -/
  | option (flag : Flag) (isLong : Bool) (attached : Option Attached)
  /-- What looks like an option and is none. -/
  | unknown
  | plain
  /-- Two dashes, after which every argument is plain. -/
  | separator
  deriving DecidableEq, Repr

/-- (isNegativeNumber text) holds of a minus with digits behind it, and perhaps a point before
the last of them. A line feed may follow.
-/
def isNegativeNumber (text : List Char) : Bool :=
  let isDigit (c : Char) : Bool := (Text.digitValue? c).isSome
  let body := if text.getLast? = some '\n' then text.dropLast else text
  match body with
  | '-' :: body =>
      match body.dropWhile isDigit with
      | [] => !body.isEmpty
      | '.' :: fraction => !fraction.isEmpty && fraction.all isDigit
      | _ => false
  | _ => false

/-- Splits a text at its first equals sign. -/
def splitEquals (text : List Char) : List Char × Option (List Char) :=
  match text.span (· ≠ '=') with
  | (name, []) => (name, none)
  | (name, _ :: value) => (name, some value)

/-- The shape of an argument that starts with two dashes and is no exact spelling: the option
whose name it begins, if there is one.
-/
def longShape (argument : String) : Except ArgumentFault (Option Shape) :=
  let (name, value) := splitEquals argument.toList
  let attached := value.map (Attached.mk true)
  let matching := spellings.filter fun (spelling, _) => name.isPrefixOf spelling.toList
  match matching with
  | [] => .ok none
  | [(_, flag)] => .ok (some (.option flag true attached))
  | matching => .error (.ambiguous argument (matching.map (·.1)))

/-- The shape of an argument before the separator. An argument that is no option is still plain
if it is a negative number or has a space in it.
-/
def shape (argument : String) : Except ArgumentFault Shape :=
  let text := argument.toList
  let otherwise : Shape := if isNegativeNumber text || text.contains ' ' then .plain else .unknown
  match flag? argument, text with
  | some flag, _ => .ok (.option flag (argument.startsWith "--") none)
  | none, '-' :: '-' :: _ => do return (← longShape argument).getD otherwise
  | none, '-' :: c :: rest =>
      match letter? c, rest with
      | some flag, '=' :: value => .ok (.option flag false (some ⟨true, value⟩))
      | some flag, rest => .ok (.option flag false (some ⟨false, rest⟩))
      | none, _ => .ok otherwise
  | none, _ => .ok .plain

/-- The shapes of all arguments. -/
def shapes : List String → Except ArgumentFault (List (String × Shape))
  | [] => .ok []
  | argument :: rest =>
      if argument = "--" then .ok ((argument, .separator) :: rest.map (·, .plain))
      else do
        let shape ← shape argument
        return (argument, shape) :: (← shapes rest)

-----------------------------------------------------------------------------------------
-- Clusters of options
-----------------------------------------------------------------------------------------

/-- What one argument says: options with their arguments, letters that are no option, and whether
it takes the next argument.
-/
structure Cluster where
  chosen : List (Flag × String)
  unknown : Option String
  takesNext : Bool

/-- An option at the end of its argument. The next argument, if it is plain, may be its own. -/
def alone (next : Option String) (flag : Flag) : Except ArgumentFault Cluster :=
  match flag.takesArgument, next with
  | true, some text => .ok ⟨[(flag, text)], none, true⟩
  | true, none => .error (.missingArgument flag)
  | false, _ => .ok ⟨[(flag, "")], none, false⟩

/-- An option letter with text behind it. The text is the argument of an option that takes one,
else it is more letters.
-/
def cluster (next : Option String) (flag : Flag) (marked : Bool)
    : List Char → Except ArgumentFault Cluster
  | [] =>
      if flag.takesArgument then .ok ⟨[(flag, "")], none, false⟩
      else .error (.needlessArgument flag "")
  | c :: rest =>
      if flag.takesArgument then .ok ⟨[(flag, String.ofList (c :: rest))], none, false⟩
      else if marked || c = '-' then .error (.needlessArgument flag (String.ofList (c :: rest)))
      else
        let behind (tail : Cluster) : Cluster := { tail with chosen := (flag, "") :: tail.chosen }
        match letter? c with
        | none => .ok ⟨[(flag, "")], some (String.ofList ('-' :: c :: rest)), false⟩
        | some inner =>
            match rest with
            | [] => (alone next inner).map behind
            | '=' :: value => (cluster next inner true value).map behind
            | d :: more => (cluster next inner false (d :: more)).map behind

/-- What an option argument says. -/
def readOption (next : Option String) (flag : Flag) (isLong : Bool) (attached : Option Attached)
    : Except ArgumentFault Cluster :=
  match attached, isLong with
  | none, _ => alone next flag
  | some ⟨_, text⟩, true => .error (.needlessArgument flag (String.ofList text))
  | some ⟨marked, text⟩, false => cluster next flag marked text

-----------------------------------------------------------------------------------------
-- The two readings
-----------------------------------------------------------------------------------------

/-- What the arguments choose. -/
structure Choices where
  interactive : Bool := false
  codes : List String := []
  buffer : String := ""
  scripts : List String := []
  deriving DecidableEq, Repr

/-- Why nothing is run. -/
inductive Quit where
  | help
  | version
  | fault (fault : ArgumentFault)
  deriving DecidableEq, Repr

/-- The effect of one option. -/
def Choices.choose (choices : Choices) : Flag × String → Except Quit Choices
  | (.help, _) => .error .help
  | (.version, _) => .error .version
  | (.interactive, _) => .ok { choices with interactive := true }
  | (.code, text) => .ok { choices with codes := choices.codes ++ [text] }
  | (.buffer, text) => .ok { choices with buffer := text }

/-- How far a reading is with the script files. -/
inductive Phase where
  /-- None has been met. -/
  | waiting
  /-- The first run of them is being taken. -/
  | taking
  /-- The first run is over. -/
  | closed
  deriving DecidableEq, Repr

/-- The state of a reading. -/
structure Reading where
  choices : Choices := {}
  phase : Phase := .waiting
  /-- The arguments that were not taken. -/
  left : List String := []
  /-- The next argument belongs to the option before it. -/
  skip : Bool := false

/-- Takes an argument that is no option. The second reading takes the first run of them as script
files; the first reading drops a separator that begins the first run.
-/
def Reading.plain (takesScripts : Bool) (r : Reading) (argument : String) (isSeparator : Bool)
    : Reading :=
  if takesScripts && r.phase ≠ .closed then
    { r with
      phase := .taking
      choices := { r.choices with scripts := r.choices.scripts ++ [argument] }
    }
  else if r.phase = .waiting && isSeparator then { r with phase := .closed }
  else { r with phase := .closed, left := r.left ++ [argument] }

/-- An option ends the run of script files that is being taken. -/
def Reading.endRun (r : Reading) : Reading :=
  if r.phase = .taking then { r with phase := .closed } else r

/-- The text of the first argument if it is plain. -/
def plainHead? : List (String × Shape) → Option String
  | (text, .plain) :: _ => some text
  | _ => none

/-- Reads the arguments in order. -/
def readAll (takesScripts : Bool) (r : Reading) : List (String × Shape) → Except Quit Reading
  | [] => .ok r
  | (argument, shape) :: rest =>
      if r.skip then readAll takesScripts { r with skip := false } rest
      else
        match shape with
        | .plain => readAll takesScripts (r.plain takesScripts argument false) rest
        | .separator => readAll takesScripts (r.plain takesScripts argument true) rest
        | .unknown =>
            let r := r.endRun
            readAll takesScripts { r with left := r.left ++ [argument] } rest
        | .option flag isLong attached =>
            let r := r.endRun
            match readOption (plainHead? rest) flag isLong attached with
            | .error fault => .error (.fault fault)
            | .ok cluster =>
                match cluster.chosen.foldlM Choices.choose r.choices with
                | .error quit => .error quit
                | .ok choices =>
                    let left := r.left ++ cluster.unknown.toList
                    readAll takesScripts
                      { r with choices, left, skip := cluster.takesNext } rest

/-- One reading: the choices and the arguments that were not taken. -/
def reading (takesScripts : Bool) (choices : Choices) (arguments : List String)
    : Except Quit (Choices × List String) :=
  match shapes arguments with
  | .error fault => .error (.fault fault)
  | .ok list =>
      match readAll takesScripts { choices } list with
      | .error quit => .error quit
      | .ok r => .ok (r.choices, r.left)

/-- What the arguments choose. The first separator among the script files is not one of them. -/
def choices (arguments : List String) : Except Quit Choices :=
  match reading false {} arguments with
  | .error quit => .error quit
  | .ok (choices, left) =>
      match reading true choices left with
      | .error quit => .error quit
      | .ok (choices, []) => .ok { choices with scripts := choices.scripts.erase "--" }
      | .ok (_, left) => .error (.fault (.unrecognized left))

end StackText.CommandLine
