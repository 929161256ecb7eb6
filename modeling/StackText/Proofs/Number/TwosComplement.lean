import Mathlib
import StackText.Machine.Apply
import StackText.Proofs.Number.IntegerRange

/-! Arithmetic on integers is that of 64-bit words in two's complement. Sums, differences, products
and negations are the operations on words, read as signed. Quotients are rounded towards zero, and
only one of them leaves the range.
-/

namespace StackText

namespace Integer

-----------------------------------------------------------------------------------------
-- Words
-----------------------------------------------------------------------------------------

/-- The integers of the language are those that 64 bits can hold. -/
theorem inRange_iff {n : Int}
    : InRange n ↔ -2 ^ 63 ≤ n ∧ n ≤ 2 ^ 63 - 1 := by
  have low : least = -2 ^ 63 := by decide
  have high : greatest = 2 ^ 63 - 1 := by decide
  rw [InRange, low, high]

/-- A number wraps to the word of its lowest 64 bits, read as signed. -/
theorem wrap_eq_toInt (n : Int)
    : wrap n = (BitVec.ofInt 64 n).toInt := by
  rw [wrap_eq_bmod, BitVec.toInt_ofInt]
  rfl

/-- There is one integer of the language in each class modulo their number, and numbers wrap to it.
-/
theorem eq_wrap_iff {n k : Int}
    : k = wrap n ↔ (-2 ^ 63 ≤ k ∧ k ≤ 2 ^ 63 - 1) ∧ k ≡ n [ZMOD 2 ^ 64] := by
  rw [← inRange_iff]
  constructor
  · rintro rfl
    refine ⟨inRange_wrap n, ?_⟩
    have same : wrap n % count = n % count := by rw [wrap_eq_bmod, Int.bmod_emod]
    exact same
  · rintro ⟨range, same⟩
    have same : k % count = n % count := same
    calc
      k = wrap k := (wrap_of_inRange range).symm
      _ = Int.bmod (k % count) count := by rw [wrap_eq_bmod, Int.emod_bmod]
      _ = Int.bmod (n % count) count := by rw [same]
      _ = wrap n := by rw [wrap_eq_bmod, Int.emod_bmod]

-----------------------------------------------------------------------------------------
-- Quotients
-----------------------------------------------------------------------------------------

/-- A fraction rounded towards zero. -/
def truncate (x : ℚ) : Int := if 0 ≤ x then ⌊x⌋ else ⌈x⌉

theorem truncate_neg (x : ℚ)
    : truncate (-x) = -truncate x := by
  rcases lt_trichotomy x 0 with negative | rfl | positive
  · rw [truncate, if_pos (by linarith), truncate, if_neg (by linarith), Int.floor_neg]
  · simp [truncate]
  · rw [truncate, if_neg (by linarith), truncate, if_pos (by linarith), Int.ceil_neg]

theorem truncate_natCast_div (m n : ℕ)
    : truncate ((m : ℚ) / n) = m / n := by
  rw [truncate, if_pos (by positivity)]
  exact Rat.floor_natCast_div_natCast m n

/-- The quotient of integers is their fraction rounded towards zero, by cases of the two signs. -/
theorem truncate_div (a b : Int)
    : truncate ((a : ℚ) / b) = quotient a b := by
  rw [quotient_eq_tdiv]
  obtain ⟨m, rfl | rfl⟩ := a.eq_nat_or_neg <;> obtain ⟨n, rfl | rfl⟩ := b.eq_nat_or_neg
  · simpa using truncate_natCast_div m n
  · simpa [div_neg, truncate_neg, Int.tdiv_neg] using truncate_natCast_div m n
  · simpa [neg_div, truncate_neg, Int.neg_tdiv] using truncate_natCast_div m n
  · simpa [neg_div, div_neg, Int.neg_tdiv, Int.tdiv_neg] using truncate_natCast_div m n

/-- The one quotient of integers that is out of range is the least integer divided by minus one. Any
divisor but one and minus one at least halves the dividend.
-/
theorem inRange_quotient_iff {a b : Int} (range : InRange a) (divisor : b ≠ 0)
    : InRange (quotient a b) ↔ ¬(a = -2 ^ 63 ∧ b = -1) := by
  rw [inRange_iff] at range ⊢
  rw [quotient_eq_tdiv]
  constructor
  · rintro ⟨_, high⟩ ⟨rfl, rfl⟩
    rw [Int.tdiv_neg, Int.tdiv_one] at high
    omega
  · intro other
    by_cases unit : b.natAbs = 1
    · obtain rfl | rfl : b = 1 ∨ b = -1 := by omega
      · rw [Int.tdiv_one]
        exact range
      · rw [Int.tdiv_neg, Int.tdiv_one]
        omega
    · have half : a.natAbs / b.natAbs ≤ a.natAbs / 2 :=
        Nat.div_le_div_left (by omega) (by decide)
      have size : (a.tdiv b).natAbs = a.natAbs / b.natAbs := Int.natAbs_tdiv a b
      omega

/-- Quotient and remainder give the dividend back, also where the quotient wraps. -/
theorem wrap_quotient_mul_add {a : Int} (range : InRange a) (b : Int)
    : wrap (wrap (quotient a b) * b + remainder a b) = a := by
  rw [quotient_eq_tdiv, remainder_eq_tmod]
  calc
    wrap (wrap (a.tdiv b) * b + a.tmod b)
    _ = wrap (wrap (wrap (a.tdiv b) * b) + a.tmod b) := by
      simp only [wrap_eq_bmod, Int.bmod_add_bmod]
    _ = wrap (wrap (a.tdiv b * b) + a.tmod b) := by simp only [wrap_eq_bmod, Int.bmod_mul_bmod]
    _ = wrap (a.tdiv b * b + a.tmod b) := by simp only [wrap_eq_bmod, Int.bmod_add_bmod]
    _ = a := by rw [Int.tdiv_mul_add_tmod, wrap_of_inRange range]

/-- (Divides a b q r) holds if q and r are quotient and remainder of a by b among the 64-bit
integers.
-/
structure Divides (a b q r : Int) : Prop where
  truncated : q = wrap (truncate ((a : ℚ) / b))
  wraps : q ≠ truncate ((a : ℚ) / b) ↔ a = -2 ^ 63 ∧ b = -1
  smaller : |r| < |b|
  sign : r = 0 ∨ r.sign = a.sign
  restored : wrap (q * b + r) = a
  quotient : -2 ^ 63 ≤ q ∧ q ≤ 2 ^ 63 - 1
  remainder : -2 ^ 63 ≤ r ∧ r ≤ 2 ^ 63 - 1

theorem divides_quotient_remainder {a b : Int} (range : InRange a) (divisor : b ≠ 0)
    : Divides a b (wrap (quotient a b)) (remainder a b) where
  truncated := by rw [truncate_div]
  wraps := by
    rw [truncate_div, ← not_iff_not, ← inRange_quotient_iff range divisor, not_not]
    exact ⟨fun same => same ▸ inRange_wrap _, wrap_of_inRange⟩
  smaller := by
    rw [remainder_eq_tmod, Int.abs_eq_natAbs, Int.abs_eq_natAbs, Int.natAbs_tmod]
    exact_mod_cast Nat.mod_lt _ (Int.natAbs_pos.mpr divisor)
  sign := by
    have sign := Int.sign_tmod a b
    rw [← remainder_eq_tmod] at sign
    split at sign
    · exact .inl (Int.sign_eq_zero_iff_zero.mp sign)
    · exact .inr sign
  restored := wrap_quotient_mul_add range b
  quotient := inRange_iff.mp (inRange_wrap _)
  remainder := inRange_iff.mp (inRange_remainder range b)

end Integer

namespace Builtin

/-- Integer arithmetic is exactly that of 64-bit words in two's complement. Every number wraps to
the one integer from -2^63 to 2^63 - 1 that agrees with it modulo 2^64. On integers of that range
addition, subtraction, multiplication and negation are the operations on words, read as signed. By a
divisor other than zero the quotient is rounded towards zero and then wrapped, which changes it only
for -2^63 by -1; the remainder is smaller than the divisor and has the sign of the dividend unless
it is zero; both are in the range and give the dividend back. Zero as a divisor is the error of that
kind. Witness: words and wrapped numbers are the same residues, and what wrapping adds to a quotient
is a multiple of 2^64 that wrapping takes away again.
-/
theorem arithmetic_is_twosComplement
    : (∀ n k,
        k = Integer.wrap n ↔ (-2 ^ 63 ≤ k ∧ k ≤ 2 ^ 63 - 1) ∧ k ≡ n [ZMOD 2 ^ 64])
      ∧ ∀ a b,
          -2 ^ 63 ≤ a ∧ a ≤ 2 ^ 63 - 1
          → -2 ^ 63 ≤ b ∧ b ≤ 2 ^ 63 - 1
          → ∀ serial console,
              run .add serial [.int a, .int b] console
                = (.ok (some (.int (BitVec.ofInt 64 a + BitVec.ofInt 64 b).toInt)), console)
              ∧ run .sub serial [.int a, .int b] console
                = (.ok (some (.int (BitVec.ofInt 64 a - BitVec.ofInt 64 b).toInt)), console)
              ∧ run .mul serial [.int a, .int b] console
                = (.ok (some (.int (BitVec.ofInt 64 a * BitVec.ofInt 64 b).toInt)), console)
              ∧ run .neg serial [.int a] console
                = (.ok (some (.int (-BitVec.ofInt 64 a).toInt)), console)
              ∧ (b ≠ 0
                → ∃ q r,
                    run .div serial [.int a, .int b] console = (.ok (some (.int q)), console)
                    ∧ run .mod serial [.int a, .int b] console = (.ok (some (.int r)), console)
                    ∧ Integer.Divides a b q r)
              ∧ (b = 0
                → ∃ byDivision byRemainder,
                    run .div serial [.int a, .int b] console
                      = (.error (.fault byDivision), console)
                    ∧ run .mod serial [.int a, .int b] console
                      = (.error (.fault byRemainder), console)
                    ∧ byDivision.kind = .zeroDivision
                    ∧ byRemainder.kind = .zeroDivision) := by
  refine ⟨fun n k => Integer.eq_wrap_iff, ?_⟩
  intro a b dividend _ serial console
  have range := Integer.inRange_iff.mpr dividend
  refine ⟨?_, ?_, ?_, ?_, ?_, ?_⟩
  · rw [← BitVec.ofInt_add, ← Integer.wrap_eq_toInt]
    rfl
  · rw [BitVec.sub_eq_add_neg, ← BitVec.ofInt_neg, ← BitVec.ofInt_add, ← Integer.wrap_eq_toInt]
    rfl
  · rw [← BitVec.ofInt_mul, ← Integer.wrap_eq_toInt]
    rfl
  · rw [← BitVec.ofInt_neg, ← Integer.wrap_eq_toInt]
    rfl
  · intro divisor
    refine ⟨_, _, ?_, ?_, Integer.divides_quotient_remainder range divisor⟩
    · simp only [run, compute, onNumbers, operands, onInts, if_neg divisor]
    · simp only [run, compute, onNumbers, operands, onInts, if_neg divisor]
  · rintro rfl
    exact ⟨.divisionByZero, .remainderByZero, rfl, rfl, rfl, rfl⟩

/-- The quotient that wraps, with no remainder, and a remainder by zero. -/
theorem arithmetic_least_by_minus_one
    : (∃ q r,
        run .div 0 [.int (-2 ^ 63), .int (-1)] {} = (.ok (some (.int q)), {})
        ∧ run .mod 0 [.int (-2 ^ 63), .int (-1)] {} = (.ok (some (.int r)), {})
        ∧ Integer.Divides (-2 ^ 63) (-1) q r
        ∧ q = -2 ^ 63
        ∧ r = 0)
      ∧ ∃ fault,
          run .mod 0 [.int (-2 ^ 63), .int 0] {} = (.error (.fault fault), {})
          ∧ fault.kind = .zeroDivision := by
  obtain ⟨_, operations⟩ := arithmetic_is_twosComplement
  constructor
  · obtain ⟨_, _, _, _, divided, _⟩ := operations (-2 ^ 63) (-1) (by decide) (by decide) 0 {}
    obtain ⟨q, r, quotient, remainder, divides⟩ := divided (by decide)
    refine ⟨q, r, quotient, remainder, divides, ?_, ?_⟩
    · cases quotient
      rfl
    · cases remainder
      rfl
  · obtain ⟨_, _, _, _, _, byZero⟩ := operations (-2 ^ 63) 0 (by decide) (by decide) 0 {}
    obtain ⟨_, fault, _, remainder, _, kind⟩ := byZero rfl
    exact ⟨fault, remainder, kind⟩

end Builtin

end StackText
