import StackText.Text.Blank
import StackText.Text.Lines

/-! The input that a program has not read yet and the output it has written. -/

namespace StackText

/-- The text streams of a running program. -/
structure Console where
  /-- The text that is still to be read. -/
  input : List Char := []
  /-- Asking for a line at the end of the input is an interruption by the user. -/
  interrupts : Bool := false
  /-- The text written so far. -/
  output : String := ""

namespace Console

/-- Writes a text. -/
def write (console : Console) (text : String) : Console :=
  { console with output := console.output ++ text }

/-- Takes the next word: blanks are passed, and the one blank behind the word is taken with it.
At the end of the input there is no word.
-/
def readWord (console : Console) : Option (List Char) × Console :=
  let text := console.input.dropWhile Text.isBlank
  let (word, rest) := text.span (!Text.isBlank ·)
  let console := { console with input := rest.drop 1 }
  (if word.isEmpty then none else some word, console)

/-- Takes the next line with its line feed. At the end of the input there is no line. -/
def readLine (console : Console) : Option (List Char) × Console :=
  let (line, rest) := Text.nextLine console.input
  (if line.isEmpty then none else some line, { console with input := rest })

end Console

end StackText
