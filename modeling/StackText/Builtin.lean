/-! The builtin words: their spelling and their number of operands. -/

namespace StackText

/-- A builtin operation. -/
inductive Builtin where
  | add | sub | mul | div | mod
  | eq | ne | lt | gt | le | ge
  | and | or | not | neg
  | print | println | read | readln | exit
  | cons | car | cdr
  deriving DecidableEq, Repr

namespace Builtin

/-- Every builtin, in the order in which they take the first slots of a store. -/
def all : List Builtin := [
  .add, .sub, .mul, .div, .mod, .eq, .ne, .lt, .gt, .le, .ge, .and, .or, .not, .neg,
  .print, .println, .read, .readln, .exit, .cons, .car, .cdr
]

theorem mem_all (b : Builtin)
    : b ∈ all := by
  cases b <;> decide

/-- The position of a builtin among all. -/
def number (b : Builtin) : Nat := all.idxOf b

/-- The word that names a builtin. -/
def word : Builtin → String
  | .add => "+"
  | .sub => "-"
  | .mul => "*"
  | .div => "/"
  | .mod => "%"
  | .eq => "=="
  | .ne => "!="
  | .lt => "<"
  | .gt => ">"
  | .le => "<="
  | .ge => ">="
  | .and => "and"
  | .or => "or"
  | .not => "not"
  | .neg => "neg"
  | .print => "print"
  | .println => "println"
  | .read => "read"
  | .readln => "readln"
  | .exit => "exit"
  | .cons => "cons"
  | .car => "car"
  | .cdr => "cdr"

/-- How many operands a builtin takes from the stack. -/
def arity : Builtin → Nat
  | .read | .readln => 0
  | .not | .neg | .print | .println | .exit | .car | .cdr => 1
  | _ => 2

end Builtin

end StackText
