import StackText.Number.Literal
import StackText.Value.Basic

/-! What can go wrong while code runs. -/

namespace StackText

/-- The kinds of error that the language reports by name. -/
inductive ErrorKind where
  | general
  | incompleteInput
  | malformedText
  | stackUnderflow
  | undefinedApplication
  | type
  | zeroDivision
  | endOfInput
  | callDepthExceeded
  deriving DecidableEq, Repr

/-- The name of a kind of error. -/
def ErrorKind.name : ErrorKind → String
  | .general => "CkError"
  | .incompleteInput => "CkIncompleteInput"
  | .malformedText => "CkSyntaxError"
  | .stackUnderflow => "CkStackUnderflow"
  | .undefinedApplication => "CkUndefinedApplication"
  | .type => "CkTypeError"
  | .zeroDivision => "CkZeroDivisionError"
  | .endOfInput => "CkEndOfInput"
  | .callDepthExceeded => "CkCallDepthExceeded"

/-- A run-time error of the language. -/
inductive Fault where
  /-- An id that no slot has. -/
  | unallocated (id : Int)
  /-- A byte that stands for no opcode. -/
  | unknownOpcode (byte : UInt8)
  /-- A value was asked of an empty stack. -/
  | emptyStack
  /-- An assignment with an empty stack. -/
  | nothingToAssign (name : String)
  /-- A builtin with fewer operands on the stack than it takes. -/
  | tooFewOperands (b : Builtin) (present : Nat)
  /-- An application of a value that is neither a function nor a builtin. -/
  | notApplicable (name : String) (type : ValueType)
  | notNumbers (b : Builtin) (types : List ValueType)
  | notPair (b : Builtin) (type : ValueType)
  | notExitCode (type : ValueType)
  | divisionByZero
  | remainderByZero
  | endOfInput (b : Builtin)
  | callDepth (limit : Nat)
  deriving DecidableEq, Repr

namespace Fault

/-- The kind of each error. -/
def kind : Fault → ErrorKind
  | .unallocated _ | .unknownOpcode _ => .general
  | .emptyStack | .nothingToAssign _ | .tooFewOperands .. => .stackUnderflow
  | .notApplicable .. => .undefinedApplication
  | .notNumbers .. | .notPair .. | .notExitCode _ => .type
  | .divisionByZero | .remainderByZero => .zeroDivision
  | .endOfInput _ => .endOfInput
  | .callDepth _ => .callDepthExceeded

/-- The wording of each error. -/
def message : Fault → String
  | .unallocated id => s!"Symbol id {id} was never allocated"
  | .unknownOpcode byte => s!"Unknown opcode: {byte.toNat}"
  | .emptyStack => "Stack is empty"
  | .nothingToAssign name => s!"Cannot set '{name}': stack is empty"
  | .tooFewOperands b present =>
      s!"'{b.word}' needs {b.arity} operand(s), stack has {present}"
  | .notApplicable name type => s!"'{name}' is {type.name}, not a function or builtin"
  | .notNumbers b types =>
      let kinds := " and ".intercalate (types.map ValueType.name)
      s!"'{b.word}' expects numbers, got {kinds}"
  | .notPair b type => s!"'{b.word}' expects a cons, got {type.name}"
  | .notExitCode type => s!"'exit' expects an integer exit code, got {type.name}"
  | .divisionByZero => "Division by zero"
  | .remainderByZero => "Modulo by zero"
  | .endOfInput b => s!"{b.word}: end of input"
  | .callDepth limit => s!"Call depth exceeded {limit} frames"

end Fault

/-- Why a run ends before its code does. -/
inductive Stop where
  /-- A run-time error. -/
  | fault (fault : Fault)
  /-- The program asked to end with an exit code. -/
  | exit (code : Int)
  /-- The user interrupted a line that was being read. -/
  | interrupted
  /-- A word of the input has the shape of a number but cannot be read as one. -/
  | numeral (fault : Numeral.Fault)
  /-- The code ends inside an instruction. -/
  | cutShort
  deriving DecidableEq, Repr

end StackText
