/-! Integers of the language: two's complement words of 64 bits, kept as the numbers they stand
for. Arithmetic is done on unbounded integers and then wrapped.
-/

namespace StackText.Integer

/-- The least integer. -/
def least : Int := -0x8000000000000000

/-- The greatest integer. -/
def greatest : Int := 0x7FFFFFFFFFFFFFFF

/-- (InRange n) holds of the numbers that are integers of the language. -/
def InRange (n : Int) : Prop := least ≤ n ∧ n ≤ greatest

instance (n : Int) : Decidable (InRange n) :=
  inferInstanceAs (Decidable (least ≤ n ∧ n ≤ greatest))

/-- The number of integers. -/
def count : Nat := 0x10000000000000000

-----------------------------------------------------------------------------------------
-- Wrapping
-----------------------------------------------------------------------------------------

/-- The bits of a number in two's complement that a mask selects. The bits of (-k - 1) are those
that are not set in (k).
-/
def masked (mask : Nat) : Int → Nat
  | .ofNat k => k &&& mask
  | .negSucc k => mask ^^^ (k &&& mask)

/-- The integer of the lowest 64 bits of a number. -/
def wrap (n : Int) : Int :=
  let low : Int := masked (count - 1) n
  if greatest < low then low - count else low

/-- The lowest bits of a number are its remainder. -/
theorem masked_eq_emod (n : Int)
    : masked (count - 1) n = n % count := by
  have lowest : ∀ k : Nat, k &&& (count - 1) = k % count :=
    fun k => Nat.and_two_pow_sub_one_eq_mod k 64
  cases n with
  | ofNat k =>
      rw [masked, lowest]
      rfl
  | negSucc k =>
      have small : k % count < count := Nat.mod_lt k (by decide)
      have flipped : (count - 1) ^^^ (k % count) = count - 1 - k % count := by
        have word := BitVec.toNat_not (x := BitVec.ofNat 64 k)
        rw [BitVec.toNat_ofNat] at word
        rw [← show (~~~BitVec.ofNat 64 k).toNat = (count - 1) ^^^ (k % count) from rfl, word]
        rfl
      rw [masked, lowest, flipped, Int.emod_negSucc, Int.subNatNat_eq_coe]
      show ((count - 1 - k % count : Nat) : Int) = (count : Int) - (k % count + 1 : Nat)
      omega

/-- A number wraps to the integer that agrees with it modulo their number. -/
theorem wrap_eq_bmod (n : Int)
    : wrap n = n.bmod count := by
  have low : greatest < n % count ↔ ¬n % count < ((count : Int) + 1) / 2 := by
    simp only [greatest, count]
    omega
  rw [wrap, masked_eq_emod, Int.bmod]
  by_cases large : greatest < n % count
  · rw [if_pos large, if_neg (low.mp large)]
  · rw [if_neg large, if_pos (Decidable.not_not.mp (mt low.mpr large))]

/-- Every number wraps into the range, as a balanced remainder. -/
theorem inRange_wrap (n : Int)
    : InRange (wrap n) := by
  have low := Int.le_bmod (x := n) (m := count) (by decide)
  have high := Int.bmod_lt (x := n) (m := count) (by decide)
  rw [← wrap_eq_bmod] at low high
  simp only [InRange, least, greatest, count] at low high ⊢
  omega

/-- An integer of the language wraps to itself. -/
theorem wrap_of_inRange {n : Int} (h : InRange n)
    : wrap n = n := by
  simp only [InRange, least, greatest] at h
  rw [wrap_eq_bmod]
  exact Int.bmod_eq_of_le (by simp only [count]; omega) (by simp only [count]; omega)

-----------------------------------------------------------------------------------------
-- Division
-----------------------------------------------------------------------------------------

/-- The quotient of the sizes, with a sign if just one operand has one. -/
def quotient (m n : Int) : Int :=
  let q : Int := m.natAbs / n.natAbs
  if (m < 0 : Bool) ≠ (n < 0 : Bool) then -q else q

/-- The remainder of the sizes, with the sign of the dividend. -/
def remainder (m n : Int) : Int :=
  let r : Int := m.natAbs % n.natAbs
  if m < 0 then -r else r

/-- The quotient is rounded towards zero, by cases of the two signs. -/
theorem quotient_eq_tdiv (m n : Int)
    : quotient m n = m.tdiv n := by
  by_cases left : m < 0 <;> by_cases right : n < 0
    <;> simp only [quotient, left, right, decide_true, decide_false, ne_eq, not_true_eq_false,
      reduceCtorEq, not_false_eq_true, if_true, if_false]
  · rw [Int.ofNat_natAbs_of_nonpos (by omega), Int.ofNat_natAbs_of_nonpos (by omega),
      ← Int.tdiv_eq_ediv_of_nonneg (by omega), Int.neg_tdiv_neg]
  · rw [Int.ofNat_natAbs_of_nonpos (by omega), Int.natAbs_of_nonneg (by omega),
      ← Int.tdiv_eq_ediv_of_nonneg (by omega), Int.neg_tdiv, Int.neg_neg]
  · rw [Int.natAbs_of_nonneg (by omega), Int.ofNat_natAbs_of_nonpos (by omega), Int.ediv_neg,
      Int.neg_neg, Int.tdiv_eq_ediv_of_nonneg (by omega)]
  · rw [Int.natAbs_of_nonneg (by omega), Int.natAbs_of_nonneg (by omega),
      Int.tdiv_eq_ediv_of_nonneg (by omega)]

/-- The remainder belongs to that quotient. -/
theorem remainder_eq_tmod (m n : Int)
    : remainder m n = m.tmod n := by
  have size : (m.natAbs : Int) % n.natAbs = ((m.tmod n).natAbs : Int) := by
    rw [Int.natAbs_tmod]
    rfl
  rw [remainder, size]
  split
  · next negative =>
      have sign := Int.tmod_nonneg n (show 0 ≤ -m by omega)
      rw [Int.neg_tmod] at sign
      omega
  · next natural =>
      have sign := Int.tmod_nonneg n (show 0 ≤ m by omega)
      omega

end StackText.Integer
