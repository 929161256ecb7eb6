import StackText.Code.Chunk
import StackText.Number.Literal

/-! Why a text cannot be compiled. -/

namespace StackText

/-- A construct that the text ends in the middle of. -/
inductive Unfinished where
  /-- A string opened with a run of quotes. -/
  | string (quote : Char) (fence : Nat)
  /-- Blocks, by their number. -/
  | blocks (count : Nat)
  deriving DecidableEq, Repr

/-- A text that no more text can mend. -/
inductive Malformed where
  /-- A closing bracket without its opening one. -/
  | strayClose
  /-- An unfinished construct at the end of all text. -/
  | unfinished (what : Unfinished)
  deriving DecidableEq, Repr

/-- Why a text was not compiled. -/
inductive ReadFault where
  /-- More text is needed. -/
  | incomplete (what : Unfinished)
  | malformed (what : Malformed)
  | numeral (fault : Numeral.Fault)
  | code (fault : CodeFault)
  deriving DecidableEq, Repr

/-- The wording while more text can follow. -/
def Unfinished.message : Unfinished → String
  | .string quote fence =>
      "Unterminated string literal opened with " ++ String.ofList (List.replicate fence quote)
  | .blocks count => s!"{count} block(s) left open"

/-- The wording for a text that cannot be mended. -/
def Malformed.message : Malformed → String
  | .strayClose => "Unexpected ')'"
  | .unfinished (.blocks count) => s!"Unmatched '(' ({count} block(s) left open)"
  | .unfinished what => what.message

/-- The wording of each fault of code. -/
def CodeFault.message : CodeFault → String
  | .byteOutOfRange => "byte must be in range(0, 256)"
  | .idOutOfRange id => s!"Symbol id {id} does not fit in an instruction operand"
  | .unknownOpcode byte => s!"{byte.toNat} is not a valid Opcode"
  | .cutShort => "bytearray index out of range"

/-- The wording of each fault. -/
def ReadFault.message : ReadFault → String
  | .incomplete what => what.message
  | .malformed what => what.message
  | .numeral fault => fault.message
  | .code fault => fault.message

end StackText
