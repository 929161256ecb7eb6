import StackText.Number.Literal
import StackText.Value.Basic

/-! The integers in values. Whatever is read as an integer is one of the 64-bit integers of the
language, and a remainder of one is one; a pair holds the integers of both its halves.
-/

namespace StackText

/-- A remainder has the sign of the dividend and is no further from zero. -/
theorem Integer.inRange_remainder {m : Int} (range : InRange m) (n : Int)
    : InRange (remainder m n) := by
  have nearer : m.natAbs % n.natAbs ≤ m.natAbs := Nat.mod_le _ _
  simp only [InRange, least, greatest] at range ⊢
  rw [remainder]
  split <;> omega

/-- Only integers of the language are read as integers. -/
theorem Numeral.inRange_of_read {word : List Char} {n : Int}
    (written : Numeral.read word = .ok (some (.int n)))
    : Integer.InRange n := by
  rw [Numeral.read] at written
  split at written
  · cases written
  · next m reads =>
      cases written
      simp only [readInt] at reads
      split at reads
      · cases reads
      split at reads
      · cases reads
      split at reads
      · cases reads
      · split at reads
        · next range => cases reads; exact range
        · cases reads
  · cases double : readFloat word with
    | error fault => rw [double] at written; cases written
    | ok x => rw [double] at written; cases x <;> cases written

namespace Value

/-- The integers in a value: itself, or those anywhere inside a pair. -/
def integers : Value → List Int
  | .int n => [n]
  | .pair _ left right => left.integers ++ right.integers
  | _ => []

/-- (v.InRange) holds if all integers in the value are integers of the language. -/
def InRange (v : Value) : Prop := ∀ n ∈ v.integers, Integer.InRange n

theorem inRange_int {n : Int}
    : (Value.int n).InRange ↔ Integer.InRange n := by
  simp [InRange, integers]

theorem inRange_pair {serial : Nat} {left right : Value}
    : (Value.pair serial left right).InRange ↔ left.InRange ∧ right.InRange := by
  simp only [InRange, integers, List.forall_mem_append]

/-- Where there is no integer all of them are in the range. -/
theorem inRange_of_integers_eq_nil {v : Value} (none : v.integers = [])
    : v.InRange := by
  simp [InRange, none]

theorem inRange_nil
    : Value.nil.InRange :=
  inRange_of_integers_eq_nil rfl

end Value

end StackText
