import StackText.Number.Binary64

/-! The shortest decimal that reads back as a given double. -/

namespace StackText.Shortest

/-- A decimal: digits times a power of ten. -/
structure Decimal where
  digits : Nat
  exponent : Int
  deriving DecidableEq, Repr

/-- The reals that round to a double, scaled to a common denominator: the double itself, the two
ends, and whether the ends round to it as well.
-/
structure Interval where
  value : Nat
  low : Nat
  high : Nat
  den : Nat
  closed : Bool

/-- The interval of a positive double with the given mantissa and exponent. Its ends lie halfway
to the neighbours; below a power of two the lower neighbour is twice as near. A tie rounds to the
even mantissa, so the ends belong to the interval of an even one.
-/
def interval (mantissa : Nat) (exponent : Int) : Interval :=
  let below := if mantissa = Binary64.leadingBit && exponent ≠ Binary64.leastExponent then 1 else 2
  let scale (n : Nat) : Nat := n <<< (exponent - 2).toNat
  {
    value := scale (4 * mantissa)
    low := scale (4 * mantissa - below)
    high := scale (4 * mantissa + 2)
    den := 1 <<< (2 - exponent).toNat
    closed := mantissa % 2 = 0
  }

/-- How many digits the value has before the decimal point; for a value below one tenth, minus
the number of zeros after the point. The estimate from the binary size is at most one too small.
-/
def magnitude (i : Interval) : Int :=
  let size : Int := (i.value.log2 : Int) - i.den.log2 - 1
  let guess := (size * 30103).fdiv 100000 + 1
  (List.range 3).foldl (fun k _ => if reaches k then k + 1 else k) guess
where
  /-- The value is at least the power of ten. -/
  reaches (k : Int) : Bool :=
    i.den * Nat.pow 10 k.toNat ≤ i.value * Nat.pow 10 (-k).toNat

/-- The decimal with the given last place that is nearest to the value among those inside the
interval, if its neighbours on that grid are inside. Of two equally near the even one is taken.
-/
def onGrid? (i : Interval) (place : Int) : Option Decimal :=
  let unit := i.den * Nat.pow 10 place.toNat
  let scale := Nat.pow 10 (-place).toNat
  let inside (digits : Nat) : Bool :=
    let point := digits * unit
    if i.closed then i.low * scale ≤ point && point ≤ i.high * scale
    else i.low * scale < point && point < i.high * scale
  let down := i.value * scale / unit
  let twice := 2 * (i.value * scale % unit)
  let up := down + 1
  let preferUp := unit < twice || (twice = unit && down % 2 = 1)
  match inside down, inside up with
  | true, true => some ⟨if preferUp then up else down, place⟩
  | true, false => some ⟨down, place⟩
  | false, true => some ⟨up, place⟩
  | false, false => none

/-- Moves the zeros at the end of the digits into the exponent. -/
def Decimal.normalize (d : Decimal) : Decimal :=
  go d.digits d
where
  go : Nat → Decimal → Decimal
    | 0, d => d
    | fuel + 1, d =>
        if d.digits % 10 = 0 && d.digits ≠ 0 then go fuel ⟨d.digits / 10, d.exponent + 1⟩ else d

/-- The shortest decimal inside the interval of a positive double, the nearest of those of that
length. Seventeen digits always suffice.
-/
def shortest (mantissa : Nat) (exponent : Int) : Decimal :=
  let i := interval mantissa exponent
  let size := magnitude i
  match (List.range 17).findSome? fun (n : Nat) => onGrid? i (size - (n + 1)) with
  | some d => d.normalize
  | none => ⟨mantissa, exponent⟩

end StackText.Shortest
