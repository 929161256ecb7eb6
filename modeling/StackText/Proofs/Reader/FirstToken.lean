import StackText.Proofs.Reader.TokenSequence

/-! Which token a text starts with, told by its first character, and what a token of a text says
about the text it was read from.
-/

namespace StackText

/-- The three quotes are none of the other characters that end a word. -/
theorem visible_of_isQuote {c : Char} (quote : isQuote c = true)
    : Text.isBlank c = false ∧ c ≠ '#' ∧ c ≠ '(' ∧ c ≠ ')' := by
  simp only [isQuote, Bool.or_eq_true, decide_eq_true_eq] at quote
  rcases quote with (rfl | rfl) | rfl <;> decide

theorem visible_of_not_isSpecial {c : Char} (plain : isSpecial c = false)
    : Text.isBlank c = false ∧ c ≠ '#' ∧ c ≠ '(' ∧ c ≠ ')' ∧ isQuote c = false := by
  simp only [isSpecial, Bool.or_eq_false_iff, decide_eq_false_iff_not] at plain
  obtain ⟨⟨⟨⟨opening, closing⟩, code⟩, quote⟩, blank⟩ := plain
  exact ⟨blank, code, opening, closing, quote⟩

namespace Token

-----------------------------------------------------------------------------------------
-- From the first character to the token
-----------------------------------------------------------------------------------------

/-- A blank in front of a text changes none of its tokens. -/
theorem sequence_blank {c : Char} (blank : Text.isBlank c = true) (rest : List Char)
    : sequence (c :: rest) = sequence rest :=
  sequence_congr (by simp [behindGap, blank])

/-- A comment reaches up to the next line feed, by induction along it. -/
theorem behindGap_comment (text : List Char)
    : behindGap true text = behindGap false ((text.dropWhile (· ≠ '\n')).drop 1) := by
  induction text with
  | nil => rfl
  | cons c rest ih =>
      by_cases feed : c = '\n'
      · simp [behindGap, feed]
      · simp [behindGap, feed, ih]

/-- A comment in front of a text changes none of its tokens. -/
theorem sequence_comment (rest : List Char)
    : sequence ('#' :: rest) = sequence ((rest.dropWhile (· ≠ '\n')).drop 1) := by
  refine sequence_congr ?_
  rw [← behindGap_comment]
  rfl

/-- A character that starts no gap starts a token. -/
theorem sequence_visible {c : Char} (visible : Text.isBlank c = false) (code : c ≠ '#')
    (rest : List Char)
    : sequence (c :: rest) = (read 0 c rest).1.token :: sequence (read 0 c rest).2 :=
  sequence_of_next?_some (by simp [next?, behindGap, visible, code])

@[simp] theorem sequence_openBlock (rest : List Char)
    : sequence ('(' :: rest) = .openBlock :: sequence rest :=
  sequence_visible (by decide) (by decide) rest

@[simp] theorem sequence_closeBlock (rest : List Char)
    : sequence (')' :: rest) = .closeBlock :: sequence rest :=
  sequence_visible (by decide) (by decide) rest

/-- A quote starts a string, if the string ends. -/
theorem sequence_string {quote : Char} (isQuote : isQuote quote = true) {rest : List Char}
    {f : Fenced} (found : Fenced.read? (quote :: rest) = some f)
    : sequence (quote :: rest) = .string (String.ofList f.text) :: sequence f.rest := by
  obtain ⟨visible, code, opening, closing⟩ := visible_of_isQuote isQuote
  rw [sequence_visible visible code, read, if_neg opening, if_neg closing, if_pos isQuote, found]

/-- A quote starts an unterminated string, if the string does not end. -/
theorem sequence_unterminated {quote : Char} (isQuote : isQuote quote = true) {rest : List Char}
    (unread : Fenced.read? (quote :: rest) = none)
    : sequence (quote :: rest) = [.unterminated (quote :: rest)] := by
  obtain ⟨visible, code, opening, closing⟩ := visible_of_isQuote isQuote
  rw [sequence_visible visible code, read, if_neg opening, if_neg closing, if_pos isQuote, unread]
  simp

/-- Any other character starts a word. -/
theorem sequence_leadingWord {c : Char} (plain : isSpecial c = false) (rest : List Char)
    : sequence (c :: rest)
      = .word (leadingWord (c :: rest))
        :: sequence ((c :: rest).drop (leadingWord (c :: rest)).length) := by
  obtain ⟨visible, code, opening, closing, quote⟩ := visible_of_not_isSpecial plain
  rw [sequence_visible visible code, read, if_neg opening, if_neg closing,
    if_neg (by simp [quote])]

/-- A word reaches up to the next special character. -/
theorem sequence_word {word : List Char} (nonempty : word ≠ [])
    (plain : ∀ c ∈ word, isSpecial c = false) {rest : List Char}
    (ends : ∀ c ∈ rest.head?, isSpecial c = true)
    : sequence (word ++ rest) = .word word :: sequence rest := by
  cases word with
  | nil => exact absurd rfl nonempty
  | cons c tail =>
      obtain ⟨first, later⟩ := List.forall_mem_cons.mp plain
      obtain ⟨visible, code, opening, closing, quote⟩ := visible_of_not_isSpecial first
      have stops : rest.takeWhile (!isSpecial ·) = [] := by
        cases rest with
        | nil => rfl
        | cons d rest => simp [ends d rfl]
      have taken : leadingWord (c :: tail ++ rest) = c :: tail := by
        rw [leadingWord, List.takeWhile_append_of_pos (by simpa using plain), stops,
          List.append_nil]
      rw [List.cons_append] at taken ⊢
      rw [sequence_visible visible code]
      simp [read, opening, closing, quote, taken]

-----------------------------------------------------------------------------------------
-- From the token to its text
-----------------------------------------------------------------------------------------

/-- The first of the tokens of a text is read first, and the others from what it leaves. -/
theorem next?_of_sequence_cons {text : List Char} {token : Token} {tokens : List Token}
    (split : sequence text = token :: tokens)
    : ∃ rest, next? text = some (token, rest) ∧ sequence rest = tokens := by
  rw [sequence_eq] at split
  split at split
  · cases split
  · next rest found => cases split; exact ⟨rest, found, rfl⟩

/-- Each token of a text was read at some place of it that starts no gap, by induction on the
tokens.
-/
theorem exists_read_of_mem_sequence {text : List Char} {token : Token}
    (member : token ∈ sequence text)
    : ∃ c rest, token = (read 0 c rest).1.token ∧ Text.isBlank c = false ∧ c ≠ '#' := by
  generalize found : sequence text = tokens at member
  induction tokens generalizing text with
  | nil => cases member
  | cons first tokens ih =>
      obtain ⟨rest, next, later⟩ := next?_of_sequence_cons found
      rcases List.mem_cons.mp member with rfl | inside
      · rw [next?] at next
        split at next
        · cases next
        · next c tail gap =>
            obtain ⟨visible, code⟩ := head_behindGap gap
            cases next
            exact ⟨c, tail, rfl, visible, code⟩
      · exact ih later inside

/-- What a token leaves is the end of the text. -/
theorem next?_suffix {text rest : List Char} {token : Token}
    (next : next? text = some (token, rest))
    : rest <:+ text := by
  unfold next? at next
  cases gap : behindGap false text with
  | nil => simp [gap] at next
  | cons c tail =>
      simp only [gap, Option.some.injEq, Prod.mk.injEq] at next
      obtain ⟨_, rfl⟩ := next
      refine List.IsSuffix.trans ?_ (gap ▸ behindGap_suffix false text)
      unfold read
      split
      · exact List.suffix_cons c tail
      split
      · exact List.suffix_cons c tail
      split
      · split
        · next found => exact (Fenced.rest_read?_suffix found).trans (List.suffix_cons c tail)
        · exact List.nil_suffix
      · exact List.drop_suffix _ _

/-- A string that a text leaves open is the end of the text, by induction on the tokens. -/
theorem suffix_of_unterminated {text held : List Char}
    (member : .unterminated held ∈ sequence text)
    : held <:+ text := by
  generalize found : sequence text = tokens at member
  induction tokens generalizing text with
  | nil => cases member
  | cons first tokens ih =>
      obtain ⟨rest, next, later⟩ := next?_of_sequence_cons found
      rcases List.mem_cons.mp member with rfl | inside
      · rw [(next?_unterminated next).1]
        exact behindGap_suffix false text
      · exact (ih later inside).trans (next?_suffix next)

/-- A string that a text leaves open starts with a quote and does not end. -/
theorem read?_of_unterminated {text held : List Char} (member : .unterminated held ∈ sequence text)
    : ∃ quote rest,
        held = quote :: rest ∧ isQuote quote = true ∧ Fenced.read? (quote :: rest) = none := by
  obtain ⟨c, rest, token, _, _⟩ := exists_read_of_mem_sequence member
  rw [read] at token
  split at token
  · cases token
  split at token
  · cases token
  split at token
  · next quote =>
      split at token
      · cases token
      · next unread => cases token; exact ⟨c, rest, rfl, quote, unread⟩
  · cases token

end Token

end StackText
