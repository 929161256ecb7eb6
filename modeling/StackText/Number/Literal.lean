import StackText.Number.Binary64
import StackText.Number.Integer
import StackText.Number.Shortest
import StackText.Text.Digit
import StackText.Text.Quoted

/-! Numbers as the language reads and writes them. -/

namespace StackText

/-- A number read from text. -/
inductive Number where
  | int (n : Int)
  | float (x : Float)

-----------------------------------------------------------------------------------------
-- Reading
-----------------------------------------------------------------------------------------

namespace Numeral

/-- Why a token that has the shape of a number cannot be read. -/
inductive Fault where
  | tooManyDigits (count : Nat)
  | unreadable (token : String)
  deriving DecidableEq, Repr

/-- The most digits an integer may be written with, leading zeros included. -/
def digitLimit : Nat := 4300

/-- The wording of each fault. -/
def Fault.message : Fault → String
  | .tooManyDigits count =>
      s!"Exceeds the limit ({digitLimit} digits) for integer string conversion: value has "
        ++ s!"{count} digits; use sys.set_int_max_str_digits() to increase the limit"
  | .unreadable token => "could not convert string to float: " ++ Text.quoted token

/-- Splits off a sign; the flag says that it is a minus. -/
def splitSign : List Char → Bool × List Char
  | '-' :: rest => (true, rest)
  | '+' :: rest => (false, rest)
  | text => (false, text)

/-- A number with its sign. -/
def signed (negative : Bool) (n : Nat) : Int :=
  if negative then -(n : Int) else n

/-- The digits of an optional exponent that must take up the whole text. -/
def exponent? : List Char → Option Int
  | [] => some 0
  | mark :: rest =>
      let (negative, digits) := splitSign rest
      if (mark = 'e' || mark = 'E') && !digits.isEmpty && digits.all Char.isDigit then
        some (signed negative (Text.ofDigits digits))
      else none

/-- An unsigned decimal with an optional point and exponent; at least one digit stands before or
after the point.
-/
def decimal? (text : List Char) : Option Shortest.Decimal :=
  let (whole, rest) := text.span Char.isDigit
  let (fraction, rest) :=
    match rest with
    | '.' :: rest => rest.span Char.isDigit
    | rest => ([], rest)
  if whole.isEmpty && fraction.isEmpty then none
  else
    (exponent? rest).map fun exponent =>
      ⟨Text.ofDigits (whole ++ fraction), exponent - fraction.length⟩

/-- The lower-case letter that a letter of a number's name counts as. The dotted capital and the
dotless small letter count as the letter i.
-/
def foldLetter (c : Char) : Char :=
  if c.toNat = 0x130 || c.toNat = 0x131 then 'i' else c.toLower

/-- A number given by name. -/
inductive Named where
  | infinity
  | nan

/-- The number with the given name, in any case. -/
def named? (text : List Char) : Option Named :=
  let name := String.ofList (text.map foldLetter)
  if name = "inf" || name = "infinity" then some .infinity
  else if name = "nan" then some .nan
  else none

/-- The double written by a token, if it has the shape of one. A name spelt with a letter that
only counts as an i is refused.
-/
def readFloat (token : List Char) : Except Fault (Option Float) :=
  let (negative, body) := splitSign token
  match decimal? body, named? body with
  | some d, _ => .ok (some (Binary64.ofDecimal negative d.digits d.exponent))
  | none, none => .ok none
  | none, some name =>
      if body.any fun c => 0x80 ≤ c.toNat then .error (.unreadable (String.ofList token))
      else
        .ok <| some <|
          match name with
          | .infinity => Binary64.ofMagnitude negative Binary64.infiniteMagnitude
          | .nan => Binary64.ofMagnitude negative Binary64.nanMagnitude

/-- The integer written by a token, if it is one of the language. Digits that cannot fit, after
leading zeros, are not looked at.
-/
def readInt (token : List Char) : Except Fault (Option Int) :=
  let (negative, digits) := splitSign token
  if digits.isEmpty || !digits.all Char.isDigit then .ok none
  else if 19 < (digits.dropWhile (· = '0')).length then .ok none
  else if digitLimit < digits.length then .error (.tooManyDigits digits.length)
  else
    let n := signed negative (Text.ofDigits digits)
    .ok (if Integer.InRange n then some n else none)

/-- The number written by a token: an integer if it is one of the language, else a double if it
has the shape of one, else none.
-/
def read (token : List Char) : Except Fault (Option Number) :=
  match readInt token with
  | .error fault => .error fault
  | .ok (some n) => .ok (some (.int n))
  | .ok none => (readFloat token).map (·.map .float)

end Numeral

-----------------------------------------------------------------------------------------
-- Writing
-----------------------------------------------------------------------------------------

namespace FloatText

/-- How doubles are written: positionally while the exponent of the first digit lies between the
bounds, else with an exponent of at least the given width.
-/
structure Format where
  leastFixed : Int
  greatestFixed : Int
  exponentWidth : Nat

/-- Doubles show all digits from 0.0001 up to 16 digits before the point; beyond that they show
an exponent of two digits or more.
-/
def format : Format := ⟨-4, 15, 2⟩

/-- The text of a positive decimal whose digits do not end in zero. A positional text always has
a digit after the point.
-/
def layout (f : Format) (d : Shortest.Decimal) : List Char :=
  let digits := Nat.toDigits 10 d.digits
  let first : Int := digits.length + d.exponent - 1
  if f.leastFixed ≤ first && first ≤ f.greatestFixed then
    if first < 0 then
      '0' :: '.' :: List.replicate (-first - 1).toNat '0' ++ digits
    else if 0 ≤ d.exponent then
      digits ++ List.replicate d.exponent.toNat '0' ++ ['.', '0']
    else
      digits.take (first + 1).toNat ++ '.' :: digits.drop (first + 1).toNat
  else
    let exponent := Nat.toDigits 10 first.natAbs
    let fraction := if digits.length = 1 then [] else '.' :: digits.drop 1
    digits.take 1 ++ fraction ++ 'e' :: (if first < 0 then '-' else '+')
      :: List.replicate (f.exponentWidth - exponent.length) '0' ++ exponent

/-- The text of a double: the shortest decimal that reads back. -/
def text (x : Float) : String :=
  let sign (negative : Bool) : List Char := if negative then ['-'] else []
  match Binary64.parts x with
  | .nan => "nan"
  | .infinite negative => String.ofList (sign negative ++ "inf".toList)
  | .finite negative 0 _ => String.ofList (sign negative ++ "0.0".toList)
  | .finite negative mantissa exponent =>
      String.ofList (sign negative ++ layout format (Shortest.shortest mantissa exponent))

end FloatText

end StackText
