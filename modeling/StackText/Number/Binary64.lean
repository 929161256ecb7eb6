/-! Doubles as exact numbers: taking one apart, rounding a ratio to the nearest one, and the
remainder of a truncated division. All of it is integer arithmetic on the bits.
-/

namespace StackText.Binary64

/-- The number a double stands for: a finite one is the mantissa times the power of two. -/
inductive Parts where
  | nan
  | infinite (negative : Bool)
  | finite (negative : Bool) (mantissa : Nat) (exponent : Int)
  deriving DecidableEq, Repr

/-- The least power of two in a finite double. -/
def leastExponent : Int := -1074

/-- The bit that normal numbers have above the 52 bits of their fraction. -/
def leadingBit : Nat := 0x10000000000000

/-- The bit that negative numbers have. -/
def signBit : Nat := 0x8000000000000000

/-- Takes a double apart. Subnormal numbers share the least exponent with the smallest normal
ones, which have one more bit in the mantissa.
-/
def parts (x : Float) : Parts :=
  let bits : Nat := x.toBits.toNat
  let negative : Bool := bits / signBit == 1
  let field : Nat := bits / leadingBit % 2048
  let fraction : Nat := bits % leadingBit
  if field = 2047 then
    if fraction = 0 then .infinite negative else .nan
  else if field = 0 then .finite negative fraction leastExponent
  else .finite negative (leadingBit + fraction) (leastExponent + (field : Int) - 1)

/-- The double with the given sign and magnitude bits. -/
def ofMagnitude (negative : Bool) (magnitude : Nat) : Float :=
  Float.ofBits (magnitude + if negative then signBit else 0).toUInt64

/-- The bits of an infinite magnitude. -/
def infiniteMagnitude : Nat := 2047 * leadingBit

/-- The bits of the magnitude of a double that is no number. -/
def nanMagnitude : Nat := infiniteMagnitude + leadingBit / 2

/-- A double that is no number. -/
def nan : Float := ofMagnitude false nanMagnitude

/-- The quotient to the nearest integer, a tie to the even one. -/
def divideNearest (num den : Nat) : Nat :=
  let quotient := num / den
  let twice := 2 * (num % den)
  if den < twice || (twice = den && quotient % 2 = 1) then quotient + 1 else quotient

/-- The numerator and denominator of (num / den) divided by a power of two. -/
def scaleDown (num den : Nat) (exponent : Int) : Nat × Nat :=
  if 0 ≤ exponent then (num, den <<< exponent.toNat) else (num <<< (-exponent).toNat, den)

/-- The exponent at which a ratio has a mantissa of 53 bits, but never below the least one. -/
def exponentFor (num den : Nat) : Int :=
  let guess : Int := (num.log2 : Int) - den.log2 - 52
  let (n, d) := scaleDown num den guess
  max leastExponent (if n / d < leadingBit then guess - 1 else guess)

/-- The double nearest to (num / den), a tie to the one with an even mantissa. Ratios beyond the
greatest double by half a step or more are infinite. Mantissa and exponent add up to the
magnitude bits, since a carry out of the mantissa is the next exponent.
-/
def ofRatio (negative : Bool) (num den : Nat) : Float :=
  if num = 0 then ofMagnitude negative 0
  else
    let exponent := exponentFor num den
    let (n, d) := scaleDown num den exponent
    let magnitude := divideNearest n d + (exponent - leastExponent).toNat * leadingBit
    ofMagnitude negative (min magnitude infiniteMagnitude)

/-- The double nearest to an integer. -/
def ofInt (n : Int) : Float :=
  ofRatio (n < 0) n.natAbs 1

/-- The double nearest to a decimal: digits times a power of ten. Exponents so large or so small
that the result can only be infinite or zero are cut off before the power is formed.
-/
def ofDecimal (negative : Bool) (digits : Nat) (exponent : Int) : Float :=
  let size : Int := (Nat.toDigits 10 digits).length + exponent
  if digits = 0 || size < -400 then ofMagnitude negative 0
  else if 400 < size then ofMagnitude negative infiniteMagnitude
  else if 0 ≤ exponent then ofRatio negative (digits * Nat.pow 10 exponent.toNat) 1
  else ofRatio negative digits (Nat.pow 10 (-exponent).toNat)

/-- What is left of (x) after taking away (y) as often as fits, with the sign of (x). There is no
remainder of an infinite number or by zero; one by an infinite number is (x) itself.
-/
def remainder? (x y : Float) : Option Float :=
  match parts x, parts y with
  | .nan, _ => some x
  | _, .nan => some y
  | .infinite _, _ => none
  | .finite .., .infinite _ => some x
  | .finite negative m e, .finite _ n f =>
      if n = 0 then none
      else
        let low := min e f
        let rest := (m <<< (e - low).toNat) % (n <<< (f - low).toNat)
        let (num, den) := scaleDown rest 1 (-low)
        some (ofRatio negative num den)

end StackText.Binary64
