import Mathlib.Data.List.TakeDrop
import Mathlib.Tactic.ByContra
import StackText.Reader.Token

/-! The words that have the shape of a number and still cannot be read as one. There are two kinds:
an integer with very many leading zeros, and a name of infinity with a letter that only counts as
the letter i.
-/

namespace StackText

namespace Numeral

/-- The capital letter i with a dot and the small one without. -/
def isOddI (c : Char) : Bool := c.toNat = 0x130 || c.toNat = 0x131

/-- (Unreadable word) holds if the word, apart from its sign, is one of: more digits than may be
written, of which all but the last few are zeros; or a name of infinity, in any case, in which an
odd letter stands for the letter i.
-/
def Unreadable (word : List Char) : Prop :=
  let body := (splitSign word).2
  (digitLimit < body.length ∧ body.all Char.isDigit = true
      ∧ (body.dropWhile (· = '0')).length ≤ 19)
    ∨ (body.any isOddI = true
      ∧ (body.map foldLetter = "inf".toList ∨ body.map foldLetter = "infinity".toList))

instance (word : List Char) : Decidable (Unreadable word) :=
  inferInstanceAs (Decidable (_ ∨ _))

-----------------------------------------------------------------------------------------
-- Letters
-----------------------------------------------------------------------------------------

theorem foldLetter_of_isOddI {c : Char} (odd : isOddI c = true)
    : foldLetter c = 'i' := by
  simp only [isOddI] at odd
  rw [foldLetter, if_pos odd]

theorem foldLetter_of_not_isOddI {c : Char} (usual : isOddI c = false)
    : foldLetter c = c.toLower := by
  simp only [isOddI] at usual
  rw [foldLetter, if_neg (by simp [usual])]

/-- Only the capital letters of ASCII have a lower case of their own. -/
theorem toLower_eq_self {c : Char} (other : c.toNat < 0x41 ∨ 0x5A < c.toNat)
    : c.toLower = c := by
  have notCapital : ¬(c.val ≥ 0x41 ∧ c.val ≤ 0x5A) := by
    simp only [ge_iff_le, UInt32.le_iff_toNat_le]
    change ¬(0x41 ≤ c.toNat ∧ c.toNat ≤ 0x5A)
    omega
  exact dif_neg notCapital

theorem isDigit_iff {c : Char}
    : c.isDigit = true ↔ 0x30 ≤ c.toNat ∧ c.toNat ≤ 0x39 := by
  simp only [Char.isDigit, Bool.and_eq_true, decide_eq_true_eq, ge_iff_le, UInt32.le_iff_toNat_le]
  exact Iff.rfl

/-- Digits, signs and the point count as themselves. -/
theorem foldLetter_eq_self {c : Char} (below : c.toNat < 0x41)
    : foldLetter c = c := by
  have usual : isOddI c = false := by
    simp only [isOddI, Bool.or_eq_false_iff, decide_eq_false_iff_not]
    omega
  rw [foldLetter_of_not_isOddI usual, toLower_eq_self (.inl below)]

/-- A letter beyond ASCII that counts as one of ASCII is odd. -/
theorem isOddI_of_foldLetter {c : Char} (beyond : 0x80 ≤ c.toNat)
    (counts : (foldLetter c).toNat < 0x80)
    : isOddI c = true := by
  by_contra usual
  rw [Bool.not_eq_true] at usual
  rw [foldLetter_of_not_isOddI usual, toLower_eq_self (.inr (by omega))] at counts
  omega

theorem beyond_of_isOddI {c : Char} (odd : isOddI c = true)
    : 0x80 ≤ c.toNat := by
  simp only [isOddI, Bool.or_eq_true, decide_eq_true_eq] at odd
  omega

-----------------------------------------------------------------------------------------
-- Integers
-----------------------------------------------------------------------------------------

/-- Only digits beyond the limit are no integer and no other word either. -/
theorem readInt_eq_error_iff {word : List Char}
    : (∃ fault, readInt word = .error fault)
      ↔ digitLimit < (splitSign word).2.length
        ∧ (splitSign word).2.all Char.isDigit = true
        ∧ ((splitSign word).2.dropWhile (· = '0')).length ≤ 19 := by
  rw [readInt]
  obtain ⟨negative, digits⟩ := splitSign word
  simp only
  split
  · next shape =>
      refine iff_of_false (by simp) ?_
      intro beyond
      obtain ⟨long, all, _⟩ := beyond
      simp only [all, Bool.not_true, Bool.or_false, List.isEmpty_iff] at shape
      simp [shape] at long
  · next shape =>
      simp only [Bool.or_eq_true, Bool.not_eq_true', not_or, Bool.not_eq_false] at shape
      split
      · next many =>
          refine iff_of_false (by simp) ?_
          intro beyond
          obtain ⟨_, _, few⟩ := beyond
          omega
      · next few =>
          split
          · next long => exact iff_of_true ⟨_, rfl⟩ ⟨long, shape.2, by omega⟩
          · next short =>
              refine iff_of_false (by simp) ?_
              intro beyond
              exact absurd beyond.1 short

-----------------------------------------------------------------------------------------
-- Names of infinity
-----------------------------------------------------------------------------------------

/-- What starts with a letter is no decimal. -/
theorem decimal?_of_head {c : Char} {rest : List Char} (letter : c.isDigit = false)
    (point : c ≠ '.')
    : decimal? (c :: rest) = none := by
  simp only [decimal?, List.span_eq_takeWhile_dropWhile, List.takeWhile_cons, List.dropWhile_cons,
    letter, Bool.false_eq_true, if_false]
  split
  · next same => exact absurd (List.cons.inj same).1 point
  · simp

/-- A word whose letters count as those of a name starts with no digit and no point. -/
theorem decimal?_of_named {body : List Char} {c : Char} {letters : List Char}
    (counts : body.map foldLetter = c :: letters) (letter : 0x41 ≤ c.toNat)
    : decimal? body = none := by
  cases body with
  | nil => cases counts
  | cons d rest =>
      have first : foldLetter d = c := (List.cons.inj counts).1
      have high : 0x41 ≤ d.toNat := by
        by_contra low
        rw [foldLetter_eq_self (by omega)] at first
        subst first
        omega
      refine decimal?_of_head ?_ ?_
      · rw [← Bool.not_eq_true, isDigit_iff]
        omega
      · intro point
        subst point
        revert high
        decide

theorem named?_eq (body : List Char)
    : named? body
      = if body.map foldLetter = "inf".toList ∨ body.map foldLetter = "infinity".toList then
          some .infinity
        else if body.map foldLetter = "nan".toList then some .nan
        else none := by
  have same (text : List Char) (name : String)
      : String.ofList text = name ↔ text = name.toList :=
    ⟨fun equal => by rw [← equal, String.toList_ofList],
      fun equal => by rw [equal, String.ofList_toList]⟩
  simp only [named?, Bool.or_eq_true, decide_eq_true_eq, same]

/-- Letters of which one is beyond ASCII count as those of an ASCII text only if one is odd. -/
theorem any_isOddI_of_beyond {body text : List Char} (counts : body.map foldLetter = text)
    (low : text.all (fun d => decide (d.toNat < 0x80)) = true)
    (beyond : (body.any fun c => decide (0x80 ≤ c.toNat)) = true)
    : body.any isOddI = true := by
  obtain ⟨c, member, high⟩ := List.any_eq_true.mp beyond
  have inside : foldLetter c ∈ text := counts ▸ List.mem_map_of_mem member
  have ascii : (foldLetter c).toNat < 0x80 := by simpa using List.all_eq_true.mp low _ inside
  exact List.any_eq_true.mpr ⟨c, member, isOddI_of_foldLetter (by simpa using high) ascii⟩

/-- An odd letter counts as one of the text. -/
theorem mem_of_any_isOddI {body text : List Char} (counts : body.map foldLetter = text)
    (some : body.any isOddI = true)
    : 'i' ∈ text := by
  obtain ⟨c, member, odd⟩ := List.any_eq_true.mp some
  rw [← foldLetter_of_isOddI odd, ← counts]
  exact List.mem_map_of_mem member

/-- Among the names, only one with an odd letter has a letter beyond ASCII, and it is one of
infinity.
-/
theorem readFloat_eq_error_iff {word : List Char}
    : (∃ fault, readFloat word = .error fault)
      ↔ (splitSign word).2.any isOddI = true
        ∧ ((splitSign word).2.map foldLetter = "inf".toList
          ∨ (splitSign word).2.map foldLetter = "infinity".toList) := by
  rw [readFloat]
  obtain ⟨negative, body⟩ := splitSign word
  simp only [named?_eq]
  constructor
  · intro refused
    obtain ⟨fault, failed⟩ := refused
    split at failed
    · cases failed
    · cases failed
    · next name named =>
        split at failed
        · next beyond =>
            split at named
            · next counts =>
                refine ⟨?_, counts⟩
                rcases counts with counts | counts
                · exact any_isOddI_of_beyond counts (by decide) beyond
                · exact any_isOddI_of_beyond counts (by decide) beyond
            · split at named
              · next counts =>
                  have some := any_isOddI_of_beyond counts (by decide) beyond
                  exact absurd (mem_of_any_isOddI counts some) (by decide)
              · cases named
        · cases failed
  · intro odd
    obtain ⟨some, counts⟩ := odd
    obtain ⟨c, member, odd⟩ := List.any_eq_true.mp some
    have noDecimal : decimal? body = none :=
      counts.elim (decimal?_of_named · (by decide)) (decimal?_of_named · (by decide))
    have beyond : (body.any fun c => decide (0x80 ≤ c.toNat)) = true :=
      List.any_eq_true.mpr ⟨c, member, by simpa using beyond_of_isOddI odd⟩
    simp only [noDecimal, if_pos counts, if_pos beyond]
    exact ⟨_, rfl⟩

-----------------------------------------------------------------------------------------
-- Words
-----------------------------------------------------------------------------------------

/-- A name of infinity is no integer. -/
theorem readInt_of_any_isOddI {word : List Char} (some : (splitSign word).2.any isOddI = true)
    : readInt word = .ok none := by
  obtain ⟨c, member, odd⟩ := List.any_eq_true.mp some
  have notAll : (splitSign word).2.all Char.isDigit = false := by
    rw [List.all_eq_false]
    refine ⟨c, member, ?_⟩
    rw [isDigit_iff]
    have beyond := beyond_of_isOddI odd
    omega
  simp only [readInt, notAll]
  simp

/-- The words that cannot be read are those that the definition lists. -/
theorem read_eq_error_iff {word : List Char}
    : (∃ fault, read word = .error fault) ↔ Unreadable word := by
  rw [Unreadable, ← readInt_eq_error_iff, ← readFloat_eq_error_iff]
  constructor
  · intro refused
    obtain ⟨fault, failed⟩ := refused
    rw [read] at failed
    split at failed
    · next failedInt => exact .inl ⟨_, failedInt⟩
    · cases failed
    · cases float : readFloat word with
      | ok x => rw [float] at failed; cases failed
      | error other => exact .inr ⟨other, rfl⟩
  · intro refused
    rcases refused with ⟨fault, failed⟩ | ⟨fault, failed⟩
    · exact ⟨fault, by rw [read, failed]⟩
    · have some := (readFloat_eq_error_iff.mp ⟨fault, failed⟩).1
      exact ⟨fault, by rw [read, readInt_of_any_isOddI some, failed]; rfl⟩

/-- A word with a sigil has no shape of a number. -/
theorem not_unreadable_sigil (rest : List Char)
    : ¬Unreadable ('$' :: rest) := by
  intro unreadable
  rcases unreadable with ⟨_, digits, _⟩ | ⟨_, counts | counts⟩
  · cases digits
  · exact absurd (List.cons.inj counts).1 (by decide)
  · exact absurd (List.cons.inj counts).1 (by decide)

end Numeral

/-- Exactly the unreadable words have no meaning. -/
theorem Term.ofWord_eq_error_iff {word : List Char}
    : (∃ fault, Term.ofWord word = .error fault) ↔ Numeral.Unreadable word := by
  rw [Term.ofWord.eq_def]
  split
  · exact iff_of_false (by simp) (Numeral.not_unreadable_sigil _)
  · exact iff_of_false (by simp) (Numeral.not_unreadable_sigil _)
  · rw [← Numeral.read_eq_error_iff]
    split
    · next failed => exact iff_of_true ⟨_, rfl⟩ ⟨_, failed⟩
    · next found => exact iff_of_false (by simp) (by simp [found])
    · next found => exact iff_of_false (by simp) (by simp [found])

end StackText
