import StackText.Number.Literal
import StackText.Text.Digit
import StackText.Text.Quoted

/-! JSON values, their compact ASCII text, and the way messages show them. -/

namespace StackText

/-- A JSON value. Integers and doubles are told apart, and the fields of an object are in order. -/
inductive Json where
  | null
  | bool (b : Bool)
  | int (n : Int)
  | float (x : Float)
  | str (text : String)
  | arr (items : List Json)
  | obj (fields : List (String × Json))

namespace Json

/-- The value of a field. -/
def field? (name : String) : Json → Option Json
  | .obj fields => (fields.find? (·.1 = name)).map (·.2)
  | _ => none

-----------------------------------------------------------------------------------------
-- Text
-----------------------------------------------------------------------------------------

/-- The escape of one 16-bit unit. -/
def unitEscape (unit : Nat) : List Char := '\\' :: 'u' :: Text.hex 4 unit

/-- How a character stands in a JSON string. All that is not visible ASCII is escaped, and a
character beyond the first plane takes two units.
-/
def escape (c : Char) : List Char :=
  let n := c.toNat
  if c = '\x22' || c = '\\' then ['\\', c]
  else if n = 0x8 then ['\\', 'b']
  else if n = 0x9 then ['\\', 't']
  else if n = 0xA then ['\\', 'n']
  else if n = 0xC then ['\\', 'f']
  else if n = 0xD then ['\\', 'r']
  else if 0x20 ≤ n && n < 0x7F then [c]
  else if n < 0x10000 then unitEscape n
  else unitEscape (0xD800 + (n - 0x10000) / 0x400) ++ unitEscape (0xDC00 + (n - 0x10000) % 0x400)

/-- A JSON string. -/
def quote (text : String) : String :=
  String.ofList ('\x22' :: text.toList.flatMap escape ++ ['\x22'])

/-- The name of a double that has no digits, or its digits. -/
def floatText (x : Float) : String :=
  match FloatText.text x with
  | "nan" => "NaN"
  | "inf" => "Infinity"
  | "-inf" => "-Infinity"
  | text => text

mutual

/-- Writes a value on one line behind a text, with a space after each comma and colon. -/
def write (done : String) : Json → String
  | .null => done ++ "null"
  | .bool b => done ++ if b then "true" else "false"
  | .int n => done ++ Text.decimalInt n
  | .float x => done ++ floatText x
  | .str s => done ++ quote s
  | .arr items => writeItems (done ++ "[") items ++ "]"
  | .obj fields => writeFields (done ++ "\x7b") fields ++ "\x7d"

/-- Writes the items of an array, with commas between them. -/
def writeItems (done : String) : List Json → String
  | [] => done
  | [item] => item.write done
  | item :: rest => writeItems (item.write done ++ ", ") rest

/-- Writes the fields of an object, with commas between them. -/
def writeFields (done : String) : List (String × Json) → String
  | [] => done
  | [(name, v)] => v.write (done ++ quote name ++ ": ")
  | (name, v) :: rest => writeFields (v.write (done ++ quote name ++ ": ") ++ ", ") rest

end

/-- The text of a value on one line. -/
def text (v : Json) : String := v.write ""

-----------------------------------------------------------------------------------------
-- Display in messages
-----------------------------------------------------------------------------------------

/-- The name of a value's type in messages. -/
def typeName : Json → String
  | .null => "NoneType"
  | .bool _ => "bool"
  | .int _ => "int"
  | .float _ => "float"
  | .str _ => "str"
  | .arr _ => "list"
  | .obj _ => "dict"

mutual

/-- A value inside a message, its strings quoted. -/
def inner : Json → String
  | .null => "None"
  | .bool b => if b then "True" else "False"
  | .int n => Text.decimalInt n
  | .float x => FloatText.text x
  | .str s => Text.quoted s
  | .arr items => "[" ++ innerItems items ++ "]"
  | .obj fields => "\x7b" ++ innerFields fields ++ "\x7d"

/-- The items of an array inside a message. -/
def innerItems : List Json → String
  | [] => ""
  | [item] => item.inner
  | item :: rest => item.inner ++ ", " ++ innerItems rest

/-- The fields of an object inside a message. -/
def innerFields : List (String × Json) → String
  | [] => ""
  | [(name, v)] => Text.quoted name ++ ": " ++ v.inner
  | (name, v) :: rest => Text.quoted name ++ ": " ++ v.inner ++ ", " ++ innerFields rest

end

/-- A value as a message shows it: a string is bare, unless it stands inside another value. -/
def display : Json → String
  | .str s => s
  | v => v.inner

end Json

end StackText
