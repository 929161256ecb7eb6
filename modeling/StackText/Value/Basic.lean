import StackText.Builtin
import StackText.Code.Chunk
import StackText.Number.Binary64

/-! The values of the language. Pairs, functions and the doubles that are no numbers have an
identity: two of them are the same only if they were made at the same time and place.
-/

namespace StackText

/-- Where a value with an identity was made. -/
inductive Identity where
  /-- The one that results from dividing zero by zero. -/
  | common
  /-- By a literal or a block of the source text, which has its own slot of the store. -/
  | slot (id : Nat)
  /-- While running, as the one with this serial number. -/
  | serial (n : Nat)
  deriving DecidableEq, Repr

/-- A block of code. The id is that of the slot it was compiled into. -/
structure Function where
  chunk : Chunk
  id : Option Nat
  identity : Identity
  deriving DecidableEq, Repr

/-- A value. A truth value comes only from a host program that puts it into the store; no
operation of the language makes one. -/
inductive Value where
  | nil
  | int (n : Int)
  | float (x : Float) (identity : Identity)
  | str (text : String)
  | builtin (b : Builtin)
  | func (f : Function)
  | pair (serial : Nat) (left right : Value)
  | truth (b : Bool)

instance : Inhabited Value := ⟨.nil⟩

/-- The types of values. -/
inductive ValueType where
  | nil | int | float | str | builtin | func | pair | truth
  deriving DecidableEq, Repr

/-- The name of a type in messages. -/
def ValueType.name : ValueType → String
  | .nil => "nil"
  | .int => "integer"
  | .float => "float"
  | .str => "string"
  | .builtin => "builtin"
  | .func => "function"
  | .pair => "cons"
  | .truth => "bool"

namespace Value

/-- The type of a value. -/
def type : Value → ValueType
  | .nil => .nil
  | .int _ => .int
  | .float .. => .float
  | .str _ => .str
  | .builtin _ => .builtin
  | .func _ => .func
  | .pair .. => .pair
  | .truth _ => .truth

/-- (isInt v) holds of integers. -/
def isInt : Value → Bool
  | .int _ => true
  | _ => false

/-- (isNumber v) holds of integers and doubles. -/
def isNumber : Value → Bool
  | .int _ | .float .. => true
  | _ => false

/-- Only nil and the integer zero are false. -/
def isTrue : Value → Bool
  | .nil => false
  | .int n => n ≠ 0
  | _ => true

/-- The integer that stands for a truth value. -/
def ofBool (b : Bool) : Value := .int (if b then 1 else 0)

/-- Equality of values. Numbers are equal as numbers, as doubles if one of them is a double;
strings by their text; all other values by what they are. A double that is no number is equal
only to itself.
-/
def equal : Value → Value → Bool
  | .nil, .nil => true
  | .int m, .int n => m = n
  | .int m, .float y _ => Binary64.ofInt m == y
  | .float x _, .int n => x == Binary64.ofInt n
  | .float x i, .float y j => x == y || (x.isNaN && y.isNaN && i = j)
  | .str s, .str t => s = t
  | .builtin a, .builtin b => a = b
  | .func f, .func g => f.identity = g.identity
  | .pair m .., .pair n .. => m = n
  | .truth a, .truth b => a = b
  | _, _ => false

end Value

end StackText
