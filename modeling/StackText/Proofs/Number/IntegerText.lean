import Mathlib.Tactic.IntervalCases
import StackText.Proofs.Number.UnreadableWords

/-! An integer of the language reads back from its decimal text. -/

namespace StackText

namespace Text

/-- The number that digits write, by their own value from the left. -/
theorem ofDigits_eq_ofDigitChars (digits : List Char)
    : ofDigits digits = Nat.ofDigitChars 10 digits 0 := by
  simp only [ofDigits, ofDigitValues, Nat.ofDigitChars_eq_foldl, List.foldl_map, Nat.mul_comm]

@[simp] theorem ofDigits_toDigits (n : Nat)
    : ofDigits (Nat.toDigits 10 n) = n := by
  rw [ofDigits_eq_ofDigitChars, Nat.ofDigitChars_ten_toDigits]

theorem all_isDigit_toDigits (n : Nat)
    : (Nat.toDigits 10 n).all Char.isDigit = true := by
  rw [List.all_eq_true]
  intro c member
  exact Nat.isDigit_of_mem_toDigits (by decide) (by decide) member

/-- The characters of an integer are its digits, behind a sign if it is negative. -/
theorem toList_decimalInt (n : Int)
    : (decimalInt n).toList
      = if n < 0 then '-' :: Nat.toDigits 10 n.natAbs else Nat.toDigits 10 n.natAbs := by
  rw [decimalInt]
  split <;> simp [decimal]

theorem decimalInt_ne_nil (n : Int)
    : (decimalInt n).toList ≠ [] := by
  rw [toList_decimalInt]
  split
  · simp
  · exact Nat.toDigits_ne_nil

/-- There are only digits and a sign in the text of an integer. -/
theorem mem_decimalInt {n : Int} {c : Char} (member : c ∈ (decimalInt n).toList)
    : c = '-' ∨ c.isDigit = true := by
  have digits := List.all_eq_true.mp (all_isDigit_toDigits n.natAbs)
  rw [toList_decimalInt] at member
  split at member
  · rcases List.mem_cons.mp member with sign | later
    · exact .inl sign
    · exact .inr (digits c later)
  · exact .inr (digits c member)

/-- A digit does not end a word. -/
theorem isSpecial_of_isDigit {c : Char} (digit : c.isDigit = true)
    : isSpecial c = false := by
  obtain ⟨low, high⟩ := Numeral.isDigit_iff.mp digit
  have same : c = Char.ofNat c.toNat := (Char.ofNat_toNat c).symm
  generalize c.toNat = n at low high same
  subst same
  interval_cases n <;> decide

theorem isSpecial_decimalInt (n : Int)
    : ∀ c ∈ (decimalInt n).toList, isSpecial c = false := by
  intro c member
  rcases mem_decimalInt member with rfl | digit
  · decide
  · exact isSpecial_of_isDigit digit

end Text

namespace Numeral

/-- Splitting off the sign leaves the digits and tells whether the integer is negative. -/
theorem splitSign_decimalInt (n : Int)
    : splitSign (Text.decimalInt n).toList = (decide (n < 0), Nat.toDigits 10 n.natAbs) := by
  rw [Text.toList_decimalInt]
  split
  · next negative => simp [splitSign, negative]
  · next positive =>
      have digits := Text.all_isDigit_toDigits n.natAbs
      rw [splitSign.eq_def]
      split
      · next signed => rw [signed] at digits; cases digits
      · next signed => rw [signed] at digits; cases digits
      · simp [positive]

/-- An integer of the language is read from its decimal text. Its digits are few enough to be looked
at, since the greatest integer has nineteen.
-/
theorem readInt_decimalInt {n : Int} (range : Integer.InRange n)
    : readInt (Text.decimalInt n).toList = .ok (some n) := by
  have bounds : Integer.least ≤ n ∧ n ≤ Integer.greatest := range
  have few : (Nat.toDigits 10 n.natAbs).length ≤ 19 := by
    rw [Nat.length_toDigits_le_iff (by decide) (by decide)]
    simp only [Integer.least, Integer.greatest] at bounds
    omega
  have fewer := (List.dropWhile_sublist (l := Nat.toDigits 10 n.natAbs) (· = '0')).length_le
  have shape : ((Nat.toDigits 10 n.natAbs).isEmpty
      || !(Nat.toDigits 10 n.natAbs).all Char.isDigit) = false := by
    simp [Text.all_isDigit_toDigits, Nat.toDigits_ne_nil]
  have whole : signed (decide (n < 0)) n.natAbs = n := by
    simp only [signed, decide_eq_true_eq]
    split <;> omega
  rw [readInt, splitSign_decimalInt]
  simp only [shape, Bool.false_eq_true, if_false, Text.ofDigits_toDigits, whole]
  rw [if_neg (by omega), if_neg (by simp only [digitLimit]; omega), if_pos range]

theorem read_decimalInt {n : Int} (range : Integer.InRange n)
    : read (Text.decimalInt n).toList = .ok (some (.int n)) := by
  rw [read, readInt_decimalInt range]

end Numeral

/-- A word without a sigil is a number if it reads as one, and otherwise a call. -/
theorem Term.ofWord_of_head {word : List Char} (noSigil : word.head? ≠ some '$')
    : Term.ofWord word
      = match Numeral.read word with
        | .error fault => .error fault
        | .ok (some n) => .ok (.number n)
        | .ok none => .ok (.call (String.ofList word)) := by
  rw [Term.ofWord.eq_def]
  split
  · exact absurd rfl noSigil
  · exact absurd rfl noSigil
  · rfl

/-- The decimal text of an integer of the language is a word that means it. -/
theorem Term.ofWord_decimalInt {n : Int} (range : Integer.InRange n)
    : Term.ofWord (Text.decimalInt n).toList = .ok (.number (.int n)) := by
  have noSigil : (Text.decimalInt n).toList.head? ≠ some '$' := by
    intro head
    rcases Text.mem_decimalInt (List.mem_of_mem_head? head) with sign | digit
    · cases sign
    · cases digit
  rw [Term.ofWord_of_head noSigil, Numeral.read_decimalInt range]

end StackText
