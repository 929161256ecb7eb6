import StackText.Json.Basic

/-! Reading JSON text. Besides the standard it takes the names of the doubles that have no
digits; of two fields with one name the later value counts, at the place of the earlier one.
Brackets nest calls, for which there is only so much room.
-/

namespace StackText.Json

/-- What is wrong with a text at some position. -/
inductive Problem where
  | expectedValue
  | expectedName
  | expectedColon
  | expectedComma
  | extraData
  | openString
  | unknownEscape
  | badUnit
  | controlCharacter
  | byteOrderMark
  deriving DecidableEq, Repr

/-- The wording of each problem. -/
def Problem.message : Problem → String
  | .expectedValue => "Expecting value"
  | .expectedName => "Expecting property name enclosed in double quotes"
  | .expectedColon => "Expecting ':' delimiter"
  | .expectedComma => "Expecting ',' delimiter"
  | .extraData => "Extra data"
  | .openString => "Unterminated string starting at"
  | .unknownEscape => "Invalid \\escape"
  | .badUnit => "Invalid \\uXXXX escape"
  | .controlCharacter => "Invalid control character at"
  | .byteOrderMark => "Unexpected UTF-8 BOM (decode using utf-8-sig)"

/-- The report of a problem, which gives its position by line, column and offset. -/
def Problem.report (what : Problem) (text : List Char) (position : Nat) : String :=
  let before := text.take position
  let line := before.count '\n' + 1
  let column := (before.reverse.takeWhile (· ≠ '\n')).length + 1
  what.message ++ s!": line {line} column {column} (char {position})"

/-- What reading makes further calls for: to read an array or an object, to look up the name of a
double, or to report a problem that it meets inside a value.
-/
inductive Call where
  | array
  | object
  | name
  | report
  deriving DecidableEq, Repr

/-- How deep such calls nest. -/
def Call.depth : Call → Nat
  | .report => 3
  | _ => 1

/-- Why a text is not read: it is not JSON, it holds an integer of too many digits, or there is no
room for a call.
-/
inductive Fault where
  | problem (what : Problem) (position : Nat)
  | numeral (fault : Numeral.Fault)
  | tooDeep (call : Call) (room : Nat)
  deriving DecidableEq, Repr

/-- Goes on if there is room for a call. -/
def Call.enter (call : Call) (room : Nat) : Except Fault Unit :=
  if room < call.depth then .error (.tooDeep call room) else .ok ()

/-- Reports a problem inside a value, if there is room for that. -/
def Problem.raise {α : Type} (what : Problem) (room position : Nat) : Except Fault α := do
  Call.report.enter room
  .error (.problem what position)

/-- The rest of a text and the offset at which it starts. -/
structure Cursor where
  rest : List Char
  position : Nat

namespace Cursor

/-- Moves past (n) characters. -/
def advance (c : Cursor) (n : Nat) : Cursor := ⟨c.rest.drop n, c.position + n⟩

/-- Moves past blanks. -/
def skipSpace (c : Cursor) : Cursor :=
  c.advance (c.rest.takeWhile fun x => x = ' ' || x = '\t' || x = '\n' || x = '\r').length

/-- A problem at the cursor that is reported once the calls inside have ended. -/
def fault {α : Type} (c : Cursor) (what : Problem) : Except Fault α :=
  .error (.problem what c.position)

end Cursor

/-- The value of a hexadecimal digit. -/
def hexDigit? (c : Char) : Option Nat :=
  if c.isDigit then some (c.toNat - '0'.toNat)
  else if 'a' ≤ c && c ≤ 'f' then some (c.toNat - 'a'.toNat + 10)
  else if 'A' ≤ c && c ≤ 'F' then some (c.toNat - 'A'.toNat + 10)
  else none

/-- The 16-bit unit written by four hexadecimal digits. -/
def unit? (a b c d : Char) : Option Nat := do
  let a ← hexDigit? a
  let b ← hexDigit? b
  let c ← hexDigit? c
  let d ← hexDigit? d
  return ((a * 16 + b) * 16 + c) * 16 + d

/-- (isHigh n) holds of the units that begin a pair. -/
def isHigh (n : Nat) : Bool := 0xD800 ≤ n && n < 0xDC00

/-- (isLow n) holds of the units that end a pair. -/
def isLow (n : Nat) : Bool := 0xDC00 ≤ n && n < 0xE000

/-- The character of a unit. Half a pair is no character; each becomes the replacement character, so
that two texts which differ only in lone halves are read alike.
-/
def unitChar (n : Nat) : Char :=
  if isHigh n || isLow n then Char.ofNat 0xFFFD else Char.ofNat n

/-- The character that a letter after a backslash stands for. -/
def simpleEscape? : Char → Option Char
  | '\x22' => some '\x22'
  | '\\' => some '\\'
  | '/' => some '/'
  | 'b' => some '\x08'
  | 'f' => some '\x0c'
  | 'n' => some '\n'
  | 'r' => some '\r'
  | 't' => some '\t'
  | _ => none

/-- What follows a unit that begins a pair. -/
inductive Follower where
  | absent
  | malformed
  | found (low : Nat)

/-- Looks for the escape of a unit that ends a pair; like any unit it must not be the end of the
text.
-/
def lowUnit? : List Char → Follower
  | '\\' :: 'u' :: a :: b :: c :: d :: _ :: _ =>
      match unit? a b c d with
      | none => .malformed
      | some unit => if isLow unit then .found unit else .absent
  | _ => .absent

/-- Reads a string from behind its opening quote, which stands at (start). The digits of a unit
must not be the end of the text.
-/
def readString (room start : Nat) (done : List Char) (position : Nat)
    : List Char → Except Fault (String × Cursor)
  | [] => Problem.openString.raise room start
  | '\x22' :: rest => .ok (String.ofList done.reverse, ⟨rest, position + 1⟩)
  | ['\\'] => Problem.openString.raise room start
  | '\\' :: 'u' :: a :: b :: c :: d :: next :: rest =>
      match unit? a b c d with
      | none => Problem.badUnit.raise room (position + 1)
      | some unit =>
          match isHigh unit, lowUnit? (next :: rest) with
          | true, .absent | false, _ =>
              readString room start (unitChar unit :: done) (position + 6) (next :: rest)
          | true, .malformed => Problem.badUnit.raise room (position + 7)
          | true, .found low =>
              let code := 0x10000 + (unit - 0xD800) * 0x400 + (low - 0xDC00)
              readString room start (Char.ofNat code :: done) (position + 12) (rest.drop 5)
  | '\\' :: 'u' :: _ => Problem.badUnit.raise room (position + 1)
  | '\\' :: letter :: rest =>
      match simpleEscape? letter with
      | some c => readString room start (c :: done) (position + 2) rest
      | none => Problem.unknownEscape.raise room position
  | c :: rest =>
      if c.toNat < 0x20 then Problem.controlCharacter.raise room position
      else readString room start (c :: done) (position + 1) rest
termination_by text => text.length
decreasing_by all_goals (simp only [List.length_cons, List.length_drop]; omega)

/-- The longest fraction at the start of a text: a point and at least one digit. -/
def fractionDigits : List Char → List Char
  | '.' :: rest => rest.takeWhile Char.isDigit
  | _ => []

/-- The longest exponent at the start of a text: its mark, an optional sign and at least one
digit. The result is its value and its length.
-/
def exponentPart : List Char → Option (Int × Nat)
  | mark :: rest =>
      let (negative, digits) := Numeral.splitSign rest
      let digits := digits.takeWhile Char.isDigit
      let sign := match rest with
        | '-' :: _ | '+' :: _ => 1
        | _ => 0
      if (mark = 'e' || mark = 'E') && !digits.isEmpty then
        some (Numeral.signed negative (Text.ofDigits digits), 1 + sign + digits.length)
      else none
  | [] => none

/-- Reads a number. Without a fraction and an exponent it is an integer. A leading zero stands
alone.
-/
def readNumber (c : Cursor) : Except Fault (Json × Cursor) :=
  let negative := c.rest.head? == some '-'
  let start := if negative then c.advance 1 else c
  let whole :=
    match start.rest with
    | '0' :: _ => ['0']
    | rest => rest.takeWhile Char.isDigit
  if whole.isEmpty then c.fault .expectedValue
  else
    let afterWhole := start.advance whole.length
    let fraction := fractionDigits afterWhole.rest
    let afterFraction :=
      if fraction.isEmpty then afterWhole else afterWhole.advance (fraction.length + 1)
    match exponentPart afterFraction.rest, fraction.isEmpty with
    | none, true =>
        if Numeral.digitLimit < whole.length then
          .error (.numeral (.tooManyDigits whole.length))
        else .ok (.int (Numeral.signed negative (Text.ofDigits whole)), afterWhole)
    | exponent, _ =>
        let (shift, length) := exponent.getD (0, 0)
        let digits := Text.ofDigits (whole ++ fraction)
        let x := Binary64.ofDecimal negative digits (shift - fraction.length)
        .ok (.float x, afterFraction.advance length)

/-- The values that are written by name. -/
def constants : List (List Char × Json) := [
  ("null".toList, .null),
  ("true".toList, .bool true),
  ("false".toList, .bool false),
  ("NaN".toList, .float Binary64.nan),
  ("Infinity".toList, .float (Binary64.ofMagnitude false Binary64.infiniteMagnitude)),
  ("-Infinity".toList, .float (Binary64.ofMagnitude true Binary64.infiniteMagnitude))
]

/-- Adds a field, or replaces the value of the one that has its name. -/
def putField (fields : List (String × Json)) (name : String) (v : Json) : List (String × Json) :=
  if fields.any (·.1 = name) then
    fields.map fun field => if field.1 = name then (name, v) else field
  else fields ++ [(name, v)]

/-- (needsLookUp v) holds of the named values that are looked up. -/
def needsLookUp : Json → Bool
  | .float _ => true
  | _ => false

mutual

/-- Reads a value. The fuel bounds the number of steps; twice the length of the text suffices, since
every second step takes a character. The room is for nested calls.
-/
def readValue : Nat → Nat → Cursor → Except Fault (Json × Cursor)
  | 0, _, c => c.fault .expectedValue
  | fuel + 1, room, c =>
      match c.rest with
      | '\x22' :: rest => do
          let (s, c) ← readString room c.position [] (c.position + 1) rest
          return (.str s, c)
      | '[' :: _ => do
          Call.array.enter room
          let c := (c.advance 1).skipSpace
          match c.rest with
          | ']' :: _ => .ok (.arr [], c.advance 1)
          | _ => readItems fuel (room - 1) [] c
      | '\x7b' :: _ => do
          Call.object.enter room
          let c := (c.advance 1).skipSpace
          match c.rest with
          | '\x7d' :: _ => .ok (.obj [], c.advance 1)
          | _ => readFields fuel (room - 1) [] c
      | rest =>
          match constants.find? fun (name, _) => name.isPrefixOf rest with
          | some (name, v) => do
              if needsLookUp v then Call.name.enter room
              return (v, c.advance name.length)
          | none => readNumber c

/-- Reads the items of an array up to its bracket. -/
def readItems : Nat → Nat → List Json → Cursor → Except Fault (Json × Cursor)
  | 0, _, _, c => c.fault .expectedValue
  | fuel + 1, room, done, c => do
      let (item, c) ← readValue fuel room c
      let c := c.skipSpace
      match c.rest with
      | ']' :: _ => .ok (.arr (item :: done).reverse, c.advance 1)
      | ',' :: _ => readItems fuel room (item :: done) (c.advance 1).skipSpace
      | _ => Problem.expectedComma.raise room c.position

/-- Reads the fields of an object up to its brace. -/
def readFields : Nat → Nat → List (String × Json) → Cursor → Except Fault (Json × Cursor)
  | 0, _, _, c => c.fault .expectedName
  | fuel + 1, room, done, c => do
      match c.rest with
      | '\x22' :: rest =>
          let (name, c) ← readString room c.position [] (c.position + 1) rest
          let c := c.skipSpace
          match c.rest with
          | ':' :: _ =>
              let (v, c) ← readValue fuel room (c.advance 1).skipSpace
              let c := c.skipSpace
              let done := putField done name v
              match c.rest with
              | '\x7d' :: _ => .ok (.obj done, c.advance 1)
              | ',' :: _ => readFields fuel room done (c.advance 1).skipSpace
              | _ => Problem.expectedComma.raise room c.position
          | _ => Problem.expectedColon.raise room c.position
      | _ => Problem.expectedName.raise room c.position

end

/-- Reads a text that holds one value and blanks around it, where there is room for some nested
calls.
-/
def read (room : Nat) (text : List Char) : Except Fault Json := do
  let start : Cursor := ⟨text, 0⟩
  if text.head? == some (Char.ofNat 0xFEFF) then start.fault .byteOrderMark
  let (v, c) ← readValue (2 * text.length + 2) room start.skipSpace
  let c := c.skipSpace
  if c.rest.isEmpty then return v else c.fault .extraData

end StackText.Json
