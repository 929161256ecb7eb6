import Mathlib
import StackText.Proofs.Number.IntegerText

/-! The tokens that are integers. Digits are counted before they are read, leading zeros apart;
since twenty digits without them never fit, this changes no answer, and a token of the right shape
is an integer exactly if its value is one of the language. Beyond the range it is a double.
-/

namespace StackText.Numeral

/-- The number that decimal digits write, the most significant first. -/
def digitsValue (digits : List Char) : Nat :=
  Nat.ofDigits 10 (digits.reverse.map fun c => c.toNat - '0'.toNat)

/-- (Digits text) holds if the text consists of one or more decimal digits of ASCII. -/
structure Digits (text : List Char) : Prop where
  nonempty : text ≠ []
  ascii : ∀ c ∈ text, '0' ≤ c ∧ c ≤ '9'

/-- (Writes token n) holds if the token is an optional sign and then digits, of which any number may
be leading zeros, and the number is their value with that sign.
-/
inductive Writes : List Char → Int → Prop
  | unsigned {digits : List Char} (shape : Digits digits)
    : Writes digits (digitsValue digits)
  | plus {digits : List Char} (shape : Digits digits)
    : Writes ('+' :: digits) (digitsValue digits)
  | minus {digits : List Char} (shape : Digits digits)
    : Writes ('-' :: digits) (-(digitsValue digits : Int))

theorem ofDigits_eq_digitsValue (digits : List Char)
    : Text.ofDigits digits = digitsValue digits := by
  rw [digitsValue, Nat.ofDigits_eq_foldr, List.map_reverse, List.foldr_reverse, Text.ofDigits,
    Text.ofDigitValues]
  simp only [Nat.cast_id, Nat.add_comm, Nat.mul_comm]

theorem isDigit_iff_between {c : Char}
    : c.isDigit = true ↔ '0' ≤ c ∧ c ≤ '9' := by
  simp [Char.isDigit, Char.le_def]

theorem digits_iff {text : List Char}
    : Digits text ↔ (text.isEmpty || !text.all Char.isDigit) = false := by
  simp only [Bool.or_eq_false_iff, List.isEmpty_eq_false_iff, Bool.not_eq_false', List.all_eq_true,
    isDigit_iff_between]
  exact ⟨fun shape => ⟨shape.nonempty, shape.ascii⟩, fun shape => ⟨shape.1, shape.2⟩⟩

/-- Digits have no sign. -/
theorem Digits.splitSign_eq {text : List Char} (shape : Digits text)
    : splitSign text = (false, text) := by
  rw [splitSign.eq_def]
  split
  · exact absurd (shape.ascii '-' List.mem_cons_self) (by decide)
  · exact absurd (shape.ascii '+' List.mem_cons_self) (by decide)
  · rfl

/-- What a token writes is told by its sign and the digits behind it. -/
theorem writes_iff {token : List Char} {n : Int}
    : Writes token n
      ↔ Digits (splitSign token).2
        ∧ n = signed (splitSign token).1 (digitsValue (splitSign token).2) := by
  constructor
  · intro writes
    cases writes with
    | unsigned shape => rw [shape.splitSign_eq]; exact ⟨shape, rfl⟩
    | plus shape | minus shape => exact ⟨shape, rfl⟩
  · rintro ⟨shape, rfl⟩
    rw [splitSign.eq_def] at shape ⊢
    split at shape
    · exact .minus shape
    · exact .plus shape
    · exact .unsigned shape

theorem digitsValue_zero_cons (digits : List Char)
    : digitsValue ('0' :: digits) = digitsValue digits := by
  simp [digitsValue, Nat.ofDigits_append]

theorem digitsValue_dropZeros (digits : List Char)
    : digitsValue (digits.dropWhile (· = '0')) = digitsValue digits := by
  induction digits with
  | nil => rfl
  | cons c digits ih =>
      rw [List.dropWhile_cons]
      split
      · next zero =>
          have first : c = '0' := by simpa using zero
          rw [ih, first, digitsValue_zero_cons]
      · rfl

/-- Digits of which the first is no zero write at least a power of ten. -/
theorem pow_le_digitsValue {c : Char} (digit : c.isDigit = true) (lead : c ≠ '0')
    (digits : List Char)
    : 10 ^ digits.length ≤ digitsValue (c :: digits) := by
  have positive : 1 ≤ c.toNat - '0'.toNat := by
    obtain ⟨low, _⟩ := isDigit_iff.mp digit
    have other : c.toNat ≠ 0x30 := fun same => lead (Char.toNat_inj.mp same)
    show 1 ≤ c.toNat - 0x30
    omega
  calc
    10 ^ digits.length
    _ ≤ 10 ^ digits.length * (c.toNat - '0'.toNat) := Nat.le_mul_of_pos_right _ positive
    _ ≤ digitsValue digits + 10 ^ digits.length * (c.toNat - '0'.toNat) := Nat.le_add_left _ _
    _ = digitsValue (c :: digits) := by simp [digitsValue, Nat.ofDigits_append]

/-- Twenty digits behind leading zeros never write an integer of the language. -/
theorem not_inRange_of_many {digits : List Char} (shape : Digits digits)
    (many : 19 < (digits.dropWhile (· = '0')).length) (negative : Bool)
    : ¬Integer.InRange (signed negative (digitsValue digits)) := by
  cases behind : digits.dropWhile (· = '0') with
  | nil => simp [behind] at many
  | cons c later =>
      have lead : c ≠ '0' := by
        have stays := List.head?_dropWhile_not (fun c => decide (c = '0')) digits
        simpa [behind] using stays
      have member : c ∈ digits :=
        (List.dropWhile_sublist _).subset (behind ▸ List.mem_cons_self)
      have large := pow_le_digitsValue (isDigit_iff_between.mpr (shape.ascii c member)) lead later
      have power : 10 ^ 19 ≤ 10 ^ later.length :=
        Nat.pow_le_pow_right (by decide) (by simpa [behind] using many)
      rw [← behind, digitsValue_dropZeros] at large
      simp only [Integer.InRange, Integer.least, Integer.greatest, signed]
      split <;> omega

theorem length_splitSign_le (token : List Char)
    : (splitSign token).2.length ≤ token.length := by
  rw [splitSign.eq_def]
  split <;> simp

/-- Counting the digits first makes no difference: a token of the right shape is read as what it
writes, if that is an integer of the language.
-/
theorem Writes.readInt_eq {token : List Char} {n : Int} (writes : Writes token n)
    (short : token.length ≤ digitLimit)
    : readInt token = .ok (if Integer.InRange n then some n else none) := by
  have fewer := length_splitSign_le token
  have written := writes_iff.mp writes
  rw [readInt]
  generalize splitSign token = parts at fewer written ⊢
  obtain ⟨negative, digits⟩ := parts
  obtain ⟨shape, rfl⟩ := written
  simp only [digits_iff.mp shape, Bool.false_eq_true, if_false, ofDigits_eq_digitsValue]
  split
  · next many => rw [if_neg (not_inRange_of_many shape many negative)]
  · rw [if_neg (by simp only at fewer; omega)]

theorem readInt_of_not_writes {token : List Char} (other : ∀ n, ¬Writes token n)
    : readInt token = .ok none := by
  have shapeless : ¬Digits (splitSign token).2 :=
    fun shape => other _ (writes_iff.mpr ⟨shape, rfl⟩)
  rw [digits_iff, Bool.not_eq_false] at shapeless
  rw [readInt]
  generalize splitSign token = parts at shapeless ⊢
  exact if_pos shapeless

/-- An integer is read wherever one is written that is in the range. -/
theorem readInt_eq_some_iff {token : List Char} (short : token.length ≤ digitLimit) {n : Int}
    : readInt token = .ok (some n) ↔ Writes token n ∧ Integer.InRange n := by
  constructor
  · intro reads
    by_cases written : ∃ m, Writes token m
    · obtain ⟨m, writes⟩ := written
      rw [writes.readInt_eq short] at reads
      split at reads
      · next range => cases reads; exact ⟨writes, range⟩
      · cases reads
    · rw [readInt_of_not_writes (not_exists.mp written)] at reads
      cases reads
  · rintro ⟨writes, range⟩
    rw [writes.readInt_eq short, if_pos range]

theorem read_eq_int_iff {token : List Char} {n : Int}
    : read token = .ok (some (.int n)) ↔ readInt token = .ok (some n) := by
  rw [read]
  constructor
  · intro reads
    split at reads
    · cases reads
    · next whole => cases reads; exact whole
    · cases double : readFloat token with
      | error fault => rw [double] at reads; cases reads
      | ok x => rw [double] at reads; cases x <;> cases reads
  · intro reads
    rw [reads]

/-- Digits alone are a decimal without a fraction. -/
theorem Digits.decimal?_eq {digits : List Char} (shape : Digits digits)
    : decimal? digits = some ⟨digitsValue digits, 0⟩ := by
  have all : ∀ c ∈ digits, c.isDigit = true :=
    fun c member => isDigit_iff_between.mpr (shape.ascii c member)
  have whole : digits.takeWhile Char.isDigit = digits := List.takeWhile_eq_self_iff.mpr all
  have rest : digits.dropWhile Char.isDigit = [] := List.dropWhile_eq_nil_iff.mpr all
  simp [decimal?, List.span_eq_takeWhile_dropWhile, whole, rest, shape.nonempty, exponent?,
    ofDigits_eq_digitsValue]

theorem readFloat_of_digits {token : List Char} (shape : Digits (splitSign token).2)
    : readFloat token
      = .ok (some
          (Binary64.ofDecimal (splitSign token).1 (digitsValue (splitSign token).2) 0)) := by
  rw [readFloat]
  generalize splitSign token = parts at shape ⊢
  simp only [shape.decimal?_eq]

/-- A number other than zero tells the sign and the size it was made of. -/
theorem signed_parts {negative : Bool} {size : Nat} (other : signed negative size ≠ 0)
    : decide (signed negative size < 0) = negative ∧ (signed negative size).natAbs = size := by
  cases negative with
  | false => simp [signed]
  | true =>
      have positive : 0 < size := by simpa [signed, Nat.pos_iff_ne_zero] using other
      simp [signed, positive]

/-- Digits that write no integer of the language are read as a double, however many there are. -/
theorem Writes.readFloat_eq {token : List Char} {n : Int} (writes : Writes token n)
    (large : ¬Integer.InRange n)
    : readFloat token = .ok (some (Binary64.ofDecimal (decide (n < 0)) n.natAbs 0)) := by
  have other : n ≠ 0 := by
    rintro rfl
    exact large (by decide)
  obtain ⟨shape, rfl⟩ := writes_iff.mp writes
  obtain ⟨sign, size⟩ := signed_parts other
  rw [readFloat_of_digits shape, sign, size]

/-- A token that is not too long is an integer exactly if it writes one in the range, and a double
if it writes one beyond. All integers in the range are read from their decimal text.
-/
theorem integers_read_exactly
    : (∀ token : List Char,
        token.length ≤ digitLimit
        → (∀ n, read token = .ok (some (.int n)) ↔ Writes token n ∧ Integer.InRange n)
          ∧ ∀ n,
              Writes token n
              → ¬Integer.InRange n
              → read token
                = .ok (some (.float (Binary64.ofDecimal (decide (n < 0)) n.natAbs 0))))
      ∧ ∀ n, Integer.InRange n → read (Text.decimalInt n).toList = .ok (some (.int n)) := by
  refine ⟨?_, fun n range => read_decimalInt range⟩
  intro token short
  refine ⟨fun n => read_eq_int_iff.trans (readInt_eq_some_iff short), ?_⟩
  intro n writes large
  rw [read, writes.readInt_eq short, if_neg large, writes.readFloat_eq large]
  rfl

/-- The least integer is read behind leading zeros, and the next below it becomes a double. -/
theorem integers_read_exactly_at_least
    : read "-0009223372036854775808".toList = .ok (some (.int Integer.least))
      ∧ read "-9223372036854775809".toList
          = .ok (some (.float (Binary64.ofDecimal true 9223372036854775809 0)))
      ∧ read (Text.decimalInt Integer.greatest).toList = .ok (some (.int Integer.greatest)) := by
  have least : Writes "-0009223372036854775808".toList Integer.least :=
    .minus (digits_iff.mpr (by decide))
  have below : Writes "-9223372036854775809".toList (Integer.least - 1) :=
    .minus (digits_iff.mpr (by decide))
  obtain ⟨tokens, texts⟩ := integers_read_exactly
  refine ⟨?_, ?_, texts _ (by decide)⟩
  · exact ((tokens _ (by decide)).1 _).mpr ⟨least, by decide⟩
  · exact (tokens _ (by decide)).2 _ below (by decide)

end StackText.Numeral
