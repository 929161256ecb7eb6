/-! Lines of a text: reading one up to its line feed, turning the line ends of files into line
feeds, and cutting a text at every character that Unicode takes for a line boundary.
-/

namespace StackText.Text

/-- Splits off the first line, its line feed included. Both parts are empty for an empty text. -/
def nextLine (text : List Char) : List Char × List Char :=
  match text.span (· ≠ '\n') with
  | (line, []) => (line, [])
  | (line, feed :: rest) => (line ++ [feed], rest)

/-- A line without its line feed, and without the carriage return before that line feed. -/
def chomp (line : List Char) : List Char :=
  match line.reverse with
  | '\n' :: '\r' :: rest => rest.reverse
  | '\n' :: rest => rest.reverse
  | _ => line

/-- Writes every carriage return, with the line feed after it if there is one, as a single line
feed.
-/
def unifyLineEnds (text : List Char) : List Char :=
  go [] text
where
  go (done : List Char) : List Char → List Char
    | [] => done.reverse
    | '\r' :: '\n' :: rest => go ('\n' :: done) rest
    | '\r' :: rest => go ('\n' :: done) rest
    | c :: rest => go (c :: done) rest

/-- (isLineBreak c) holds of the characters that end a line on an editor's screen. -/
def isLineBreak (c : Char) : Bool :=
  let n := c.toNat
  (0xA ≤ n && n ≤ 0xD) || (0x1C ≤ n && n ≤ 0x1E) || n == 0x85 || n == 0x2028 || n == 0x2029

/-- The screen lines of a text, each with the break that ends it; a carriage return and the line
feed after it are one break. A text that ends with a break has no empty last line.
-/
def screenLines (text : List Char) : List (List Char) :=
  go [] [] text
where
  go (done : List (List Char)) (line : List Char) : List Char → List (List Char)
    | [] => (if line.isEmpty then done else line.reverse :: done).reverse
    | '\r' :: '\n' :: rest => go (('\n' :: '\r' :: line).reverse :: done) [] rest
    | c :: rest =>
        if isLineBreak c then go ((c :: line).reverse :: done) [] rest
        else go done (c :: line) rest

end StackText.Text
