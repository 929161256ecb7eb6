import StackText.Machine.Console
import StackText.Machine.Fault
import StackText.Value.Render

/-! What the builtins do. An operand pushed earlier stands to the left of one pushed later. -/

namespace StackText

/-- Two numbers of one type. -/
inductive Operands where
  | ints (m n : Int)
  | floats (x y : Float)

namespace Builtin

/-- The operands of an operation on numbers. If one is a double, so becomes the other. -/
def operands (b : Builtin) : Value → Value → Except Fault Operands
  | .int m, .int n => .ok (.ints m n)
  | .int m, .float y _ => .ok (.floats (Binary64.ofInt m) y)
  | .float x _, .int n => .ok (.floats x (Binary64.ofInt n))
  | .float x _, .float y _ => .ok (.floats x y)
  | l, r => .error (.notNumbers b [l.type, r.type])

/-- Division of doubles. A quotient by zero that is no number is the common one. -/
def divideFloats (x y : Float) (fresh : Identity) : Value :=
  .float (x / y) (if y == 0.0 then .common else fresh)

/-- The remainder of doubles. Where there is none the result is the common double that is no
number.
-/
def remainderFloats (x y : Float) (fresh : Identity) : Value :=
  match Binary64.remainder? x y with
  | some r => .float r fresh
  | none => .float Binary64.nan .common

/-- Arithmetic on integers; only division by zero has no result. -/
def onInts (b : Builtin) (m n : Int) : Except Fault Value :=
  match b with
  | .add => .ok (.int (Integer.wrap (m + n)))
  | .sub => .ok (.int (Integer.wrap (m - n)))
  | .mul => .ok (.int (Integer.wrap (m * n)))
  | .div =>
      if n = 0 then .error .divisionByZero else .ok (.int (Integer.wrap (Integer.quotient m n)))
  | .mod => if n = 0 then .error .remainderByZero else .ok (.int (Integer.remainder m n))
  | .lt => .ok (.ofBool (m < n))
  | .gt => .ok (.ofBool (n < m))
  | .le => .ok (.ofBool (m ≤ n))
  | .ge => .ok (.ofBool (n ≤ m))
  | _ => .error (.notNumbers b [.int, .int])

/-- Arithmetic on doubles. -/
def onFloats (b : Builtin) (x y : Float) (fresh : Identity) : Except Fault Value :=
  match b with
  | .add => .ok (.float (x + y) fresh)
  | .sub => .ok (.float (x - y) fresh)
  | .mul => .ok (.float (x * y) fresh)
  | .div => .ok (divideFloats x y fresh)
  | .mod => .ok (remainderFloats x y fresh)
  | .lt => .ok (.ofBool (x < y))
  | .gt => .ok (.ofBool (y < x))
  | .le => .ok (.ofBool (x ≤ y))
  | .ge => .ok (.ofBool (y ≤ x))
  | _ => .error (.notNumbers b [.float, .float])

/-- An operation on two numbers. -/
def onNumbers (b : Builtin) (l r : Value) (fresh : Identity) : Except Fault Value :=
  match b.operands l r with
  | .ok (.ints m n) => b.onInts m n
  | .ok (.floats x y) => b.onFloats x y fresh
  | .error fault => .error fault

/-- The result of a builtin that neither reads nor writes. The serial number is that of what the
builtin makes. A builtin with fewer operands than it takes has no result.
-/
def compute (b : Builtin) (serial : Nat) (operands : List Value) : Except Fault Value :=
  match b, operands with
  | .eq, [l, r] => .ok (.ofBool (l.equal r))
  | .ne, [l, r] => .ok (.ofBool (!l.equal r))
  | .and, [l, r] => .ok (.ofBool (l.isTrue && r.isTrue))
  | .or, [l, r] => .ok (.ofBool (l.isTrue || r.isTrue))
  | .cons, [l, r] => .ok (.pair serial l r)
  | .not, [v] => .ok (.ofBool !v.isTrue)
  | .neg, [.int n] => .ok (.int (Integer.wrap (-n)))
  | .neg, [.float x _] => .ok (.float (-x) (.serial serial))
  | .neg, [v] => .error (.notNumbers .neg [v.type])
  | .car, [.pair _ l _] => .ok l
  | .car, [v] => .error (.notPair .car v.type)
  | .cdr, [.pair _ _ r] => .ok r
  | .cdr, [v] => .error (.notPair .cdr v.type)
  | b, [l, r] => b.onNumbers l r (.serial serial)
  | b, operands => .error (.tooFewOperands b operands.length)

/-- The value of a word that was read: a number if it reads as one, else a string. -/
def wordValue (serial : Nat) (word : List Char) : Except Numeral.Fault Value :=
  match Numeral.read word with
  | .ok (some (.int n)) => .ok (.int n)
  | .ok (some (.float x)) => .ok (.float x (.serial serial))
  | .ok none => .ok (.str (String.ofList word))
  | .error fault => .error fault

/-- Runs a builtin on its operands. The result is what it pushes, if anything. -/
def run (b : Builtin) (serial : Nat) (operands : List Value) (console : Console)
    : Except Stop (Option Value) × Console :=
  match b, operands with
  | .print, [v] => (.ok none, console.write v.render)
  | .println, [v] => (.ok none, console.write (v.render ++ "\n"))
  | .read, [] =>
      match console.readWord with
      | (none, console) => (.error (.fault (.endOfInput .read)), console)
      | (some word, console) =>
          match wordValue serial word with
          | .ok v => (.ok (some v), console)
          | .error fault => (.error (.numeral fault), console)
  | .readln, [] =>
      match console.readLine with
      | (none, console) =>
          (.error (if console.interrupts then .interrupted else .fault (.endOfInput .readln)),
            console)
      | (some line, console) => (.ok (some (.str (String.ofList (Text.chomp line)))), console)
  | .exit, [.int code] => (.error (.exit code), console)
  | .exit, [v] => (.error (.fault (.notExitCode v.type)), console)
  | b, operands =>
      match b.compute serial operands with
      | .ok v => (.ok (some v), console)
      | .error fault => (.error (.fault fault), console)

end Builtin

end StackText
