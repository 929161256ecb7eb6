import StackText.Reader.Fence

/-! How a string is closed. A string that has not ended can always be, whatever its fence and the
quotes in it; and a text between single quotes reads back if the quotes in it are doubled.
-/

namespace StackText

namespace Fenced

variable {quote : Char}

/-- (EndsFence quote rest) holds if a closing fence may stand right before (rest) and is not longer
than it should be.
-/
structure EndsFence (quote : Char) (rest : List Char) : Prop where
  closes : closesBefore rest = true
  other : ∀ c ∈ rest.head?, c ≠ quote

/-- The quotes that a closing fence lacks close the string, by induction on their number. -/
theorem readBody_closing {rest : List Char} (ends : EndsFence quote rest) {fence run count : Nat}
    (complete : run + count = fence) (text : List Char) (size : Nat)
    : readBody quote fence run text size (List.replicate count quote ++ rest)
      = some ⟨text.reverse, size + count, rest⟩ := by
  induction count generalizing run size with
  | zero =>
      subst complete
      cases rest with
      | nil => simp [readBody]
      | cons c rest => simp [readBody, ends.other c rfl, ends.closes]
  | succ count ih =>
      rw [List.replicate_succ, List.cons_append, readBody, if_pos rfl, ih (by omega)]
      congr 2
      omega

-----------------------------------------------------------------------------------------
-- Strings that have not ended
-----------------------------------------------------------------------------------------

/-- A body that has not ended does so with a blank and a fence. The blank makes content of a run of
quotes at the end of the body, which is not as long as the fence. By induction along the body.
-/
theorem exists_readBody_of_none {rest : List Char} (ends : EndsFence quote rest)
    (visible : ' ' ≠ quote) {fence run size : Nat} {text source : List Char}
    (unread : readBody quote fence run text size source = none)
    : ∃ f,
        readBody quote fence run text size
            (source ++ ' ' :: (List.replicate fence quote ++ rest))
          = some f
        ∧ f.rest = rest := by
  fun_induction readBody quote fence run text size source with
  | case1 => cases unread
  | case2 run text size differs =>
      rw [List.nil_append, readBody, if_neg visible, if_neg (by simp [differs])]
      exact ⟨_, readBody_closing ends (by omega) _ _, rfl⟩
  | case3 _ _ _ _ ih => simpa [readBody] using ih unread
  | case4 => cases unread
  | case5 run text size c source other open' quotes ih =>
      have open'' : ¬(run = fence
          && closesBefore (c :: (source ++ ' ' :: (List.replicate fence quote ++ rest)))) = true :=
        open'
      rw [List.cons_append, readBody, if_neg other, if_neg open'']
      exact ih unread

/-- A string that has not ended does so with a blank and its fence. -/
theorem exists_read?_of_none {rest tail : List Char} (ends : EndsFence quote rest)
    (visible : ' ' ≠ quote) (unread : read? (quote :: tail) = none)
    : ∃ f,
        read?
            (quote :: tail
              ++ ' ' :: (List.replicate (openingRun (quote :: tail)) quote ++ rest))
          = some f
        ∧ f.rest = rest := by
  generalize closing : ' ' :: (List.replicate (openingRun (quote :: tail)) quote ++ rest) = more
  have same : openingRun (quote :: (tail ++ more)) = openingRun (quote :: tail) := by
    simp only [openingRun, List.takeWhile_append, ← closing]
    split
    · next whole => simp [visible, whole]
    · rfl
  have cut : (tail ++ more).drop (openingRun (quote :: tail) - 1)
      = tail.drop (openingRun (quote :: tail) - 1) ++ more := by
    refine List.drop_append_of_le_length ?_
    simpa [openingRun] using (List.takeWhile_sublist (l := tail) (· = quote)).length_le
  simp only [List.cons_append, read?, same, cut] at unread ⊢
  rw [← closing]
  exact exists_readBody_of_none ends visible unread

-----------------------------------------------------------------------------------------
-- Doubled quotes
-----------------------------------------------------------------------------------------

/-- A text with each quote in it doubled. -/
def doubled (quote : Char) : List Char → List Char
  | [] => []
  | c :: text => if c = quote then c :: c :: doubled quote text else c :: doubled quote text

/-- Doubled quotes fold back while a body is read. Behind an even number of quotes comes more text,
so that they are not taken for a fence; a fence follows the last character, which is no quote. By
induction on the text.
-/
theorem readBody_doubled {rest : List Char} (ends : EndsFence quote rest) {body : List Char}
    (last : body.getLast? ≠ some quote) {pairs : Nat} (behind : pairs = 0 ∨ body ≠ [])
    (text : List Char) (size : Nat)
    : ∃ f,
        readBody quote 1 (2 * pairs) text size (doubled quote body ++ quote :: rest) = some f
        ∧ f.text = text.reverse ++ List.replicate pairs quote ++ body
        ∧ f.rest = rest := by
  induction body generalizing pairs text size with
  | nil =>
      obtain rfl : pairs = 0 := behind.resolve_right (by simp)
      have complete : 0 + 1 = 1 := rfl
      exact ⟨_, readBody_closing ends complete text size, by simp, rfl⟩
  | cons c body ih =>
      by_cases same : c = quote
      · subst same
        have more : body ≠ [] := by
          intro empty
          subst empty
          exact last rfl
        have later : body.getLast? ≠ some c := by
          rwa [List.getLast?_cons_of_ne_nil more] at last
        have behind : pairs + 1 = 0 ∨ body ≠ [] := .inr more
        obtain ⟨f, found, content, left⟩ := ih later behind text (size + 2)
        refine ⟨f, ?_, ?_, left⟩
        · simpa [doubled, readBody, Nat.mul_add, Nat.add_assoc] using found
        · simp [content, List.replicate_succ']
      · have later : body.getLast? ≠ some quote := by
          cases body with
          | nil => simp
          | cons d body => simpa using last
        have even : ¬(2 * pairs = 1) := by omega
        have half : foldRun 1 (2 * pairs) = pairs := by simp [foldRun]; omega
        have none : 0 = 0 ∨ body ≠ [] := .inl rfl
        obtain ⟨f, found, content, left⟩ := ih later none
          (c :: List.replicate pairs quote ++ text) (size + 1)
        refine ⟨f, ?_, ?_, left⟩
        · simpa [doubled, readBody, same, even, half] using found
        · simp [content]

/-- A text whose first and last character are no quotes reads back from between single quotes if
the quotes in it are doubled.
-/
theorem exists_read?_doubled {rest : List Char} (ends : EndsFence quote rest) {body : List Char}
    (nonempty : body ≠ []) (first : body.head? ≠ some quote) (last : body.getLast? ≠ some quote)
    : ∃ f,
        read? (quote :: doubled quote body ++ quote :: rest) = some f
        ∧ f.text = body
        ∧ f.rest = rest := by
  cases body with
  | nil => exact absurd rfl nonempty
  | cons c body =>
      have other : c ≠ quote := by simpa using first
      have fence : openingRun (quote :: (doubled quote (c :: body) ++ quote :: rest)) = 1 := by
        simp [openingRun, doubled, other]
      have none : 0 = 0 ∨ c :: body ≠ [] := .inl rfl
      obtain ⟨f, found, content, left⟩ := readBody_doubled ends last none [] 1
      refine ⟨f, ?_, by simpa using content, left⟩
      rw [List.cons_append, read?, fence]
      exact found

end Fenced

end StackText
