/-! The code that the arguments name, in their order. -/

namespace StackText.CommandLine

/-- A piece of code to run. -/
inductive Source where
  | file (name : String)
  | code (text : String)
  deriving DecidableEq, Repr

/-- The first letter of a cluster that takes an argument, whether the argument is code, and the
text behind the letter.
-/
def argumentLetter? : List Char → Option (Bool × List Char)
  | [] => none
  | 'c' :: rest => some (true, rest)
  | 'f' :: rest => some (false, rest)
  | _ :: rest => argumentLetter? rest

/-- The sources from an argument on. If the argument before awaits its own, (awaiting) says
whether that is code; an argument that never comes is empty.
-/
def sourcesFrom (awaiting : Option Bool) : List String → List Source
  | [] => if awaiting = some true then [.code ""] else []
  | argument :: rest =>
      match awaiting with
      | some true => .code argument :: sourcesFrom none rest
      | some false => sourcesFrom none rest
      | none =>
          match argument.toList with
          | ['-', '-'] => rest.map .file
          | '-' :: '-' :: _ => sourcesFrom none rest
          | '-' :: c :: letters =>
              match argumentLetter? (c :: letters) with
              | none => sourcesFrom none rest
              | some (isCode, []) => sourcesFrom (some isCode) rest
              | some (true, value) => .code (String.ofList value) :: sourcesFrom none rest
              | some (false, _) => sourcesFrom none rest
          | _ => .file argument :: sourcesFrom none rest

/-- The script files and inline code among the arguments, in order. -/
def sources (arguments : List String) : List Source := sourcesFrom none arguments

end StackText.CommandLine
