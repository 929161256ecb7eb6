import StackText.Json.Basic

/-! The text of every JSON value is plain: it has no characters but spaces and the visible ones of
ASCII, so that it stands on one line.
-/

namespace StackText

-----------------------------------------------------------------------------------------
-- Digits
-----------------------------------------------------------------------------------------

namespace Text

/-- (isPlain c) holds of the space and of the visible characters of ASCII. -/
def isPlain (c : Char) : Bool := 0x20 ≤ c.toNat && c.toNat < 0x7F

theorem isPlain_digitChar
    : ∀ digit < 16, isPlain (Nat.digitChar digit) = true := by
  decide

/-- Digits are plain, by induction on the number without its last one. -/
theorem all_isPlain_toDigits (base n : Nat) (least : 1 < base) (most : base ≤ 16)
    : (Nat.toDigits base n).all isPlain = true := by
  induction n using Nat.strongRecOn with
  | ind n ih =>
      rw [Nat.toDigits_eq_if least]
      split
      · next digit => simp [isPlain_digitChar n (by omega)]
      · next large =>
          have front := ih (n / base) (Nat.div_lt_self (by omega) least)
          have last : n % base < 16 := Nat.lt_of_lt_of_le (Nat.mod_lt n (by omega)) most
          simp [front, isPlain_digitChar _ last]

theorem all_isPlain_of_sublist {part whole : List Char} (sublist : part.Sublist whole)
    (plain : whole.all isPlain = true)
    : part.all isPlain = true :=
  List.all_eq_true.mpr fun c member => List.all_eq_true.mp plain c (sublist.subset member)

theorem all_isPlain_zeros (count : Nat)
    : (List.replicate count '0').all isPlain = true := by
  rw [List.all_replicate]
  split <;> rfl

theorem all_isPlain_hex (width n : Nat)
    : (hex width n).all isPlain = true := by
  rw [hex, List.all_append, all_isPlain_zeros, all_isPlain_toDigits 16 n (by decide) (by decide)]
  rfl

theorem all_isPlain_decimalInt (n : Int)
    : (decimalInt n).toList.all isPlain = true := by
  have digits := all_isPlain_toDigits 10 n.natAbs (by decide) (by decide)
  have minus : isPlain '-' = true := rfl
  rw [decimalInt]
  split <;> simp [decimal, digits, minus]

end Text

open Text

namespace FloatText

theorem all_isPlain_layout (f : Format) (d : Shortest.Decimal)
    : (layout f d).all isPlain = true := by
  have digits : ∀ n, (Nat.toDigits 10 n).all isPlain = true :=
    fun n => all_isPlain_toDigits 10 n (by decide) (by decide)
  have front : ∀ n count, ((Nat.toDigits 10 n).take count).all isPlain = true :=
    fun n count => all_isPlain_of_sublist (List.take_sublist _ _) (digits n)
  have back : ∀ n count, ((Nat.toDigits 10 n).drop count).all isPlain = true :=
    fun n count => all_isPlain_of_sublist (List.drop_sublist _ _) (digits n)
  have marks : isPlain '0' = true ∧ isPlain '.' = true ∧ isPlain 'e' = true ∧ isPlain '-' = true
      ∧ isPlain '+' = true := by
    decide
  obtain ⟨zero, point, exponent, minus, plus⟩ := marks
  simp only [layout]
  split
  · split
    · simp [digits, zero, point]
    · split <;> simp [digits, front, back, zero, point]
  · split <;> split <;>
      simp only [List.all_append, List.all_cons, List.all_nil, digits, front, back,
        all_isPlain_zeros, point, exponent, minus, plus, Bool.and_self]

theorem all_isPlain_text (x : Float)
    : (text x).toList.all isPlain = true := by
  have sign : ∀ negative : Bool, (if negative then ['-'] else []).all isPlain = true := by
    intro negative
    cases negative <;> rfl
  simp only [text]
  split
  · rfl
  · next negative _ => cases negative <;> rfl
  · next negative _ _ => cases negative <;> rfl
  · rw [String.toList_ofList, List.all_append, all_isPlain_layout, sign]
    rfl

end FloatText

-----------------------------------------------------------------------------------------
-- Values
-----------------------------------------------------------------------------------------

namespace Json

theorem all_isPlain_floatText (x : Float)
    : (floatText x).toList.all isPlain = true := by
  rw [floatText]
  split
  · rfl
  · rfl
  · rfl
  · exact FloatText.all_isPlain_text x

theorem all_isPlain_unitEscape (unit : Nat)
    : (unitEscape unit).all isPlain = true := by
  have marks : isPlain '\\' = true ∧ isPlain 'u' = true := by decide
  simp [unitEscape, marks, all_isPlain_hex]

/-- A character stands for itself only if it is plain. -/
theorem all_isPlain_escape (c : Char)
    : (escape c).all isPlain = true := by
  fun_cases escape c with
  | case1 special =>
      rw [Bool.or_eq_true, decide_eq_true_iff, decide_eq_true_iff] at special
      rcases special with rfl | rfl <;> rfl
  | case2 | case3 | case4 | case5 | case6 => rfl
  | case7 n _ _ _ _ _ _ visible =>
      have plain : isPlain c = true := visible
      simp [plain]
  | case8 => exact all_isPlain_unitEscape _
  | case9 => rw [List.all_append, all_isPlain_unitEscape, all_isPlain_unitEscape]; rfl

theorem all_isPlain_quote (text : String)
    : (quote text).toList.all isPlain = true := by
  have mark : isPlain '\x22' = true := rfl
  simp [quote, mark, List.all_flatMap, all_isPlain_escape]

theorem all_isPlain_append (done : String) {added : String}
    (plain : added.toList.all isPlain = true)
    : (done ++ added).toList.all isPlain = done.toList.all isPlain := by
  simp [plain]

mutual

/-- A value adds plain text only, by induction on it. -/
theorem all_isPlain_write (done : String)
    : (v : Json) → (v.write done).toList.all isPlain = done.toList.all isPlain
  | .null => all_isPlain_append done rfl
  | .bool b => by cases b <;> exact all_isPlain_append done rfl
  | .int n => all_isPlain_append done (all_isPlain_decimalInt n)
  | .float x => all_isPlain_append done (all_isPlain_floatText x)
  | .str s => all_isPlain_append done (all_isPlain_quote s)
  | .arr items => by
      rw [write, all_isPlain_append _ rfl, all_isPlain_writeItems, all_isPlain_append _ rfl]
  | .obj fields => by
      rw [write, all_isPlain_append _ rfl, all_isPlain_writeFields, all_isPlain_append _ rfl]

theorem all_isPlain_writeItems (done : String)
    : (items : List Json) → (writeItems done items).toList.all isPlain = done.toList.all isPlain
  | [] => rfl
  | [item] => all_isPlain_write done item
  | item :: next :: rest => by
      rw [writeItems, all_isPlain_writeItems, all_isPlain_append _ rfl, all_isPlain_write]
      simp

theorem all_isPlain_writeFields (done : String)
    : (fields : List (String × Json))
      → (writeFields done fields).toList.all isPlain = done.toList.all isPlain
  | [] => rfl
  | [(name, v)] => by
      rw [writeFields, all_isPlain_write, all_isPlain_append _ rfl,
        all_isPlain_append _ (all_isPlain_quote name)]
  | (name, v) :: next :: rest => by
      rw [writeFields, all_isPlain_writeFields, all_isPlain_append _ rfl, all_isPlain_write,
        all_isPlain_append _ rfl, all_isPlain_append _ (all_isPlain_quote name)]
      simp

end

end Json

end StackText
