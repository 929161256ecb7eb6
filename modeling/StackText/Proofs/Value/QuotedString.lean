import Mathlib
import StackText.Proofs.Reader.FenceGrammar
import StackText.Value.Render

/-! Strings inside a rendered pair, and which of them the reader gives back. Doubled quotes are
halved again when they are read, except where they touch the quotes around the string.
-/

namespace StackText

theorem Fenced.doubled_eq_flatMap (quote : Char) (text : List Char)
    : doubled quote text = text.flatMap fun c => if c = quote then [c, c] else [c] := by
  induction text with
  | nil => rfl
  | cons c text ih =>
      rw [List.flatMap_cons, ← ih, doubled]
      split <;> rfl

/-- A fence may close before any boundary that does not run on from it. -/
theorem Fenced.endsFence_of_boundary {quote : Char} (visible : sigil ≠ quote) {rest : List Char}
    (boundary : ∀ c ∈ rest.head?, (isSpecial c = true ∧ c ≠ quote) ∨ c = sigil)
    : EndsFence quote rest := by
  cases rest with
  | nil => exact ⟨rfl, by simp⟩
  | cons c rest =>
      rcases boundary c rfl with ⟨special, other⟩ | rfl
      · exact ⟨by simp [closesBefore, special], by simpa using other⟩
      · exact ⟨by simp [closesBefore], by simpa using visible⟩

namespace Value

/-- A string inside a pair is its text with doubled quotes, between quotes. -/
theorem quoteString_eq (text : String)
    : quoteString text = '\x22' :: Fenced.doubled '\x22' text.toList ++ ['\x22'] := by
  rw [quoteString, Fenced.doubled_eq_flatMap]

/-- A quoted string is read back exactly if it is not empty and neither starts nor ends with a
quote, whatever follows that does not run on from its last quote. Witness: the text of a string that
is read is never empty, and the characters next to its fences are no quotes; where this holds of the
text, its doubled quotes are halved again.
-/
theorem quoteString_read_back_iff (text : String) {rest : List Char}
    (boundary : ∀ c ∈ rest.head?, (isSpecial c = true ∧ c ≠ '\x22') ∨ c = sigil)
    : (Fenced.read? (quoteString text ++ rest)).map (fun f => (f.text, f.size))
        = some (text.toList, (quoteString text).length)
      ↔ text ≠ "" ∧ text.toList.head? ≠ some '\x22' ∧ text.toList.getLast? ≠ some '\x22' := by
  have opens : (quoteString text ++ rest)[0]? = some '\x22' := rfl
  constructor
  · intro back
    obtain ⟨f, read, same⟩ := Option.map_eq_some_iff.mp back
    obtain ⟨content, _⟩ := Prod.mk.inj same
    rw [← content, Ne, ← String.toList_eq_nil_iff, ← content]
    exact Fenced.text_of_read? opens read
  · rintro ⟨nonempty, first, last⟩
    have ends := Fenced.endsFence_of_boundary (by decide) boundary
    obtain ⟨f, read, content, follows⟩ :=
      Fenced.exists_read?_doubled ends (by simpa using nonempty) first last
    have read : Fenced.read? (quoteString text ++ rest) = some f := by
      rw [quoteString_eq, List.append_assoc]
      exact read
    obtain ⟨_, whole⟩ := Fenced.size_of_read? opens read
    rw [follows, List.length_append] at whole
    have size : f.size = (quoteString text).length := by omega
    rw [read, Option.map_some, content, size]

/-- In front of the point of a pair, quotes inside a string are read back and a quote at its start
is not.
-/
theorem quoteString_read_back_inner_quotes
    : (Fenced.read? (quoteString "a\"b\"\"c" ++ " . 1)".toList)).map (fun f => (f.text, f.size))
        = some ("a\"b\"\"c".toList, 11)
      ∧ (Fenced.read? (quoteString "\"a" ++ " . 1)".toList)).map (fun f => (f.text, f.size))
          ≠ some ("\"a".toList, 5) := by
  have boundary : ∀ c ∈ " . 1)".toList.head?, (isSpecial c = true ∧ c ≠ '\x22') ∨ c = sigil := by
    intro c point
    cases point
    exact .inl (by decide)
  constructor
  · exact (quoteString_read_back_iff "a\"b\"\"c" boundary).mpr (by decide)
  · intro back
    exact ((quoteString_read_back_iff "\"a" boundary).mp back).2.1 (by decide)

end Value

end StackText
