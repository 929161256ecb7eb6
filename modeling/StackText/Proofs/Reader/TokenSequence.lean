import StackText.Reader.Token

/-! The tokens of a text without their places, and how much of them more text can change.
A token with text behind it is read alike whatever comes after that text, so a line feed at the
end of a piece settles every token of the piece but an unterminated string.
-/

namespace StackText

-----------------------------------------------------------------------------------------
-- Tokens without places
-----------------------------------------------------------------------------------------

namespace Token

/-- The tokens of a text in order. -/
def sequence (text : List Char) : List Token := (scan text).map Lexeme.token

/-- The text behind the blanks and comments at the start of a text; the flag says that the text
starts inside a comment.
-/
def behindGap (comment : Bool) : List Char → List Char
  | [] => []
  | c :: rest =>
      if comment then behindGap (c ≠ '\n') rest
      else if Text.isBlank c then behindGap false rest
      else if c = '#' then behindGap true rest
      else c :: rest

/-- The first token of a text and what is left behind it. -/
def next? (text : List Char) : Option (Token × List Char) :=
  match behindGap false text with
  | [] => none
  | c :: rest => some ((read 0 c rest).1.token, (read 0 c rest).2)

/-- Passing a gap gives the text behind it, at whatever offset the gap starts. -/
theorem skipGap_snd (comment : Bool) (position : Nat) (text : List Char)
    : (skipGap comment position text).2 = behindGap comment text := by
  fun_induction skipGap comment position text <;> simp_all [behindGap]

/-- The offset of a token changes neither the token nor the text behind it, by cases on its
first character.
-/
theorem read_eq_read_zero (position : Nat) (c : Char) (rest : List Char)
    : (read position c rest).1.token = (read 0 c rest).1.token
      ∧ (read position c rest).2 = (read 0 c rest).2 := by
  unfold read
  split
  · exact ⟨rfl, rfl⟩
  split
  · exact ⟨rfl, rfl⟩
  split
  · cases Fenced.read? (c :: rest) with
    | none => exact ⟨rfl, rfl⟩
    | some f => exact ⟨rfl, rfl⟩
  · exact ⟨rfl, rfl⟩

/-- A text with nothing behind its gap has no more tokens. -/
theorem scanFrom_of_behindGap_nil {text : List Char} (gap : behindGap false text = [])
    (done : List Lexeme) (position : Nat)
    : scanFrom done position text = done.reverse := by
  unfold scanFrom
  split
  · rfl
  · next found =>
      have same := skipGap_snd false position text
      rw [found, gap] at same
      cases same

/-- A text with a character behind its gap starts with the token that the character opens. -/
theorem scanFrom_of_behindGap_cons {text : List Char} {c : Char} {rest : List Char}
    (gap : behindGap false text = c :: rest) (done : List Lexeme) (position : Nat)
    : ∃ start,
        scanFrom done position text
          = scanFrom ((read start c rest).1 :: done) (read start c rest).1.stop
              (read start c rest).2 := by
  have same := skipGap_snd false position text
  rw [gap] at same
  conv => enter [1, start, 1]; unfold scanFrom
  split
  · next found => rw [found] at same; cases same
  · next start _ _ found =>
      rw [found] at same
      cases same
      exact ⟨start, rfl⟩

/-- The character behind a gap is neither blank nor the start of a comment. -/
theorem head_behindGap {comment : Bool} {text : List Char} {c : Char} {rest : List Char}
    (gap : behindGap comment text = c :: rest)
    : Text.isBlank c = false ∧ c ≠ '#' :=
  head_skipGap (Prod.ext rfl ((skipGap_snd comment 0 text).trans gap))

theorem length_read_lt {text : List Char} {c : Char} {rest : List Char}
    (gap : behindGap false text = c :: rest) (position : Nat)
    : (read position c rest).2.length < text.length := by
  have shorter := length_skipGap false 0 text
  rw [skipGap_snd, gap, List.length_cons] at shorter
  obtain ⟨visible, code⟩ := head_behindGap gap
  have token := length_read visible code position rest
  omega

/-- Tokens found earlier and the offset do not change the tokens that follow, by induction on
the length of the text.
-/
theorem map_token_scanFrom (done : List Lexeme) (position : Nat) (text : List Char)
    : (scanFrom done position text).map Lexeme.token
      = done.reverse.map Lexeme.token ++ sequence text := by
  induction size : text.length using Nat.strongRecOn generalizing done position text with
  | ind n ih =>
      cases gap : behindGap false text with
      | nil => simp [sequence, scan, scanFrom_of_behindGap_nil gap]
      | cons c rest =>
          obtain ⟨start, here⟩ := scanFrom_of_behindGap_cons gap done position
          obtain ⟨first, there⟩ := scanFrom_of_behindGap_cons gap [] 0
          have shorter := size ▸ length_read_lt gap start
          have shorter' := size ▸ length_read_lt gap first
          have whole : sequence text
              = (read first c rest).1.token :: sequence (read first c rest).2 := by
            rw [sequence, scan, there, ih _ shorter' _ _ _ rfl]
            rfl
          obtain ⟨token, behind⟩ := read_eq_read_zero start c rest
          obtain ⟨token', behind'⟩ := read_eq_read_zero first c rest
          rw [here, ih _ shorter _ _ _ rfl, whole, token', behind', behind]
          simp [token]

/-- The tokens of a text are its first token and the tokens of the text behind it. -/
theorem sequence_eq (text : List Char)
    : sequence text
      = match next? text with
        | none => []
        | some (token, rest) => token :: sequence rest := by
  unfold next?
  cases gap : behindGap false text with
  | nil => simp [sequence, scan, scanFrom_of_behindGap_nil gap]
  | cons c rest =>
      obtain ⟨start, here⟩ := scanFrom_of_behindGap_cons gap [] 0
      obtain ⟨token, behind⟩ := read_eq_read_zero start c rest
      rw [sequence, scan, here, map_token_scanFrom, behind]
      simp [token]

theorem sequence_of_next?_none {text : List Char} (none : next? text = none)
    : sequence text = [] := by
  rw [sequence_eq, none]

@[simp] theorem sequence_nil
    : sequence [] = [] :=
  sequence_of_next?_none rfl

theorem sequence_of_next?_some {text : List Char} {token : Token} {rest : List Char}
    (some : next? text = some (token, rest))
    : sequence text = token :: sequence rest := by
  rw [sequence_eq, some]

end Token

-----------------------------------------------------------------------------------------
-- More text behind a token
-----------------------------------------------------------------------------------------

theorem Text.getLast?_of_suffix {rest text : List Char} (suffix : rest <:+ text)
    (nonempty : rest ≠ [])
    : rest.getLast? = text.getLast? := by
  obtain ⟨front, rfl⟩ := suffix
  rw [List.getLast?_append, List.getLast?_eq_some_getLast nonempty, Option.some_or]

namespace Fenced

theorem rest_readBody_suffix {quote : Char} {fence run size : Nat} {text source : List Char}
    {f : Fenced} (read : readBody quote fence run text size source = some f)
    : f.rest <:+ source := by
  fun_induction readBody quote fence run text size source with
  | case1 => cases read; exact List.suffix_rfl
  | case2 => cases read
  | case3 _ _ _ _ ih => exact (ih read).trans (List.suffix_cons _ _)
  | case4 => cases read; exact List.suffix_rfl
  | case5 _ _ _ _ _ _ _ _ ih => exact (ih read).trans (List.suffix_cons _ _)

/-- A string with text behind it ends there whatever follows that text, since a closing fence
is judged by the one character behind it.
-/
theorem readBody_append {quote : Char} {fence run size : Nat} {text source : List Char}
    {f : Fenced} (read : readBody quote fence run text size source = some f)
    (behind : f.rest ≠ []) (more : List Char)
    : readBody quote fence run text size (source ++ more)
      = some { f with rest := f.rest ++ more } := by
  fun_induction readBody quote fence run text size source with
  | case1 => cases read; exact absurd rfl behind
  | case2 => cases read
  | case3 _ _ _ _ ih => simpa [readBody] using ih read
  | case4 run text size c rest other closes =>
      cases read
      have closes' : (run = fence && closesBefore (c :: (rest ++ more))) = true := closes
      simp [readBody, other, closes']
  | case5 run text size c rest other open' quotes ih =>
      have open'' : ¬(run = fence && closesBefore (c :: (rest ++ more))) = true := open'
      simpa [readBody, other, open''] using ih read

/-- A text can end with the closing fence of a string only in a quote, given that the string
has a fence.
-/
theorem getLast?_of_readBody_rest_nil {quote : Char} {fence run size : Nat}
    {text source : List Char} {f : Fenced} (fenced : 0 < fence)
    (read : readBody quote fence run text size source = some f) (behind : f.rest = [])
    : source = [] ∨ source.getLast? = some quote := by
  fun_induction readBody quote fence run text size source with
  | case1 => exact .inl rfl
  | case2 => cases read
  | case3 _ _ _ rest ih =>
      rcases ih read with empty | last
      · exact .inr (by simp [empty])
      · exact .inr (by simp [List.getLast?_cons, last])
  | case4 => cases read; cases behind
  | case5 run text size c rest other open' quotes ih =>
      rcases ih read with empty | last
      · subst empty
        simp only [readBody] at read
        split at read
        · omega
        · cases read
      · exact .inr (by simp [List.getLast?_cons, last])

theorem rest_read?_suffix {quote : Char} {rest : List Char} {f : Fenced}
    (read : read? (quote :: rest) = some f)
    : f.rest <:+ rest :=
  (rest_readBody_suffix read).trans (List.drop_suffix _ _)

theorem drop_openingRun_ne_nil {quote : Char} {rest : List Char} {f : Fenced}
    (read : read? (quote :: rest) = some f)
    : rest.drop (openingRun (quote :: rest) - 1) ≠ [] := by
  intro empty
  simp only [read?, empty, readBody] at read
  simp [openingRun] at read

/-- A string with text behind it is read alike whatever follows that text. The opening fence
does not grow either, since other text follows it.
-/
theorem read?_append {quote : Char} {rest : List Char} {f : Fenced}
    (read : read? (quote :: rest) = some f) (behind : f.rest ≠ []) (more : List Char)
    : read? (quote :: rest ++ more) = some { f with rest := f.rest ++ more } := by
  have body := drop_openingRun_ne_nil read
  simp only [openingRun, Nat.add_sub_cancel, ne_eq, List.drop_eq_nil_iff, Nat.not_le] at body
  have fence : openingRun (quote :: (rest ++ more)) = openingRun (quote :: rest) := by
    simp only [openingRun, List.takeWhile_append]
    rw [if_neg (by omega)]
  have cut : (rest ++ more).drop (openingRun (quote :: rest) - 1)
      = rest.drop (openingRun (quote :: rest) - 1) ++ more := by
    rw [List.drop_append_of_le_length]
    simp only [openingRun]
    omega
  simp only [read?, List.cons_append, fence, cut]
  exact readBody_append read behind more

/-- A text that ends in a line feed does not end with a string's closing fence. -/
theorem rest_read?_ne_nil {quote : Char} {rest : List Char} {f : Fenced}
    (isQuote : isQuote quote = true) (line : rest.getLast? = some '\n')
    (read : read? (quote :: rest) = some f)
    : f.rest ≠ [] := by
  intro behind
  have body := drop_openingRun_ne_nil read
  rcases getLast?_of_readBody_rest_nil (by simp [openingRun]) read behind with empty | last
  · exact body empty
  · have same := Text.getLast?_of_suffix (List.drop_suffix _ rest) body
    rw [last, line] at same
    cases same
    revert isQuote
    decide

end Fenced

namespace Token

theorem behindGap_suffix (comment : Bool) (text : List Char)
    : behindGap comment text <:+ text := by
  fun_induction behindGap comment text with
  | case1 => exact List.suffix_rfl
  | case2 c rest ih => exact ih.trans (List.suffix_cons _ _)
  | case3 comment c rest code blank ih => exact ih.trans (List.suffix_cons _ _)
  | case4 comment rest code blank ih => exact ih.trans (List.suffix_cons _ _)
  | case5 => exact List.suffix_rfl

/-- What is behind a gap does not start with another gap. -/
theorem behindGap_behindGap (comment : Bool) (text : List Char)
    : behindGap false (behindGap comment text) = behindGap comment text := by
  cases gap : behindGap comment text with
  | nil => rfl
  | cons c rest =>
      obtain ⟨visible, code⟩ := head_behindGap gap
      simp [behindGap, visible, code]

/-- A gap ends at the same character whatever follows that character. -/
theorem behindGap_append {comment : Bool} {text : List Char} {c : Char} {rest : List Char}
    (gap : behindGap comment text = c :: rest) (more : List Char)
    : behindGap comment (text ++ more) = c :: (rest ++ more) := by
  fun_induction behindGap comment text with
  | case1 => cases gap
  | case2 _ _ ih => simpa [behindGap] using ih gap
  | case3 _ _ _ code blank ih => simpa [behindGap, code, blank] using ih gap
  | case4 _ _ code blank ih => simpa [behindGap, code, blank] using ih gap
  | case5 _ _ _ code blank other => cases gap; simp [behindGap, code, blank, other]

/-- A gap that fills lines reaches on into the text behind them, outside any comment. Before the
first line feed the gap may be inside a comment.
-/
theorem behindGap_append_of_line {comment : Bool} {text : List Char}
    (line : text.getLast? = some '\n' ∨ text = [] ∧ comment = false)
    (gap : behindGap comment text = []) (more : List Char)
    : behindGap comment (text ++ more) = behindGap false more := by
  induction text generalizing comment with
  | nil =>
      rcases line with last | ⟨_, code⟩
      · cases last
      · rw [code, List.nil_append]
  | cons c rest ih =>
      have last : rest.getLast? = some '\n' ∨ rest = [] ∧ c = '\n' := by
        cases rest with
        | nil => exact .inr ⟨rfl, by simpa using line⟩
        | cons d rest => exact .inl (by simpa using line)
      rw [List.cons_append, behindGap]
      rw [behindGap] at gap
      split
      · next inside =>
          rw [if_pos inside] at gap
          exact ih (last.imp_right fun ⟨empty, feed⟩ => ⟨empty, by simp [feed]⟩) gap
      · next outside =>
          rw [if_neg outside] at gap
          split
          · next blank =>
              rw [if_pos blank] at gap
              exact ih (last.imp_right fun ⟨empty, _⟩ => ⟨empty, rfl⟩) gap
          · next visible =>
              rw [if_neg visible] at gap
              split
              · next hash =>
                  rw [if_pos hash] at gap
                  refine ih (last.imp_right fun ⟨_, feed⟩ => ?_) gap
                  rw [feed] at visible
                  exact absurd (by decide) visible
              · next other =>
                  rw [if_neg other] at gap
                  cases gap

/-- A token with text behind it is read alike whatever follows that text. -/
theorem read_append {position : Nat} {c : Char} {rest : List Char}
    (behind : (read position c rest).2 ≠ []) (more : List Char)
    : (read position c (rest ++ more)).1.token = (read position c rest).1.token
      ∧ (read position c (rest ++ more)).2 = (read position c rest).2 ++ more := by
  unfold read at behind ⊢
  split
  · exact ⟨rfl, rfl⟩
  split
  · exact ⟨rfl, rfl⟩
  split
  · next opening closing quote =>
      rw [if_neg opening, if_neg closing, if_pos quote] at behind
      cases found : Fenced.read? (c :: rest) with
      | none => simp [found] at behind
      | some f =>
          simp only [found] at behind
          have longer := Fenced.read?_append found behind more
          rw [List.cons_append] at longer
          simp [longer]
  · next opening closing quote =>
      rw [if_neg opening, if_neg closing, if_neg quote] at behind
      have word : leadingWord (c :: rest ++ more) = leadingWord (c :: rest) := by
        rw [leadingWord, List.takeWhile_append, if_neg]
        · rfl
        · intro whole
          exact behind (List.drop_eq_nil_iff.mpr (Nat.le_of_eq whole.symm))
      have bound : (leadingWord (c :: rest)).length ≤ (c :: rest).length :=
        (List.takeWhile_sublist _).length_le
      rw [← List.cons_append]
      simp only [word, List.drop_append_of_le_length bound, and_self]

/-- The first token of a text with more behind it stays the first whatever follows. -/
theorem next?_append {text : List Char} {token : Token} {rest : List Char}
    (next : next? text = some (token, rest)) (behind : rest ≠ []) (more : List Char)
    : next? (text ++ more) = some (token, rest ++ more) := by
  unfold next? at next ⊢
  cases gap : behindGap false text with
  | nil => simp [gap] at next
  | cons c tail =>
      simp only [gap, Option.some.injEq, Prod.mk.injEq] at next
      obtain ⟨rfl, rfl⟩ := next
      obtain ⟨same, longer⟩ := read_append behind more
      simp [behindGap_append gap more, same, longer]

theorem length_next? {text : List Char} {token : Token} {rest : List Char}
    (next : next? text = some (token, rest))
    : rest.length < text.length := by
  unfold next? at next
  cases gap : behindGap false text with
  | nil => simp [gap] at next
  | cons c tail =>
      simp only [gap, Option.some.injEq, Prod.mk.injEq] at next
      exact next.2 ▸ length_read_lt gap 0

-----------------------------------------------------------------------------------------
-- The tokens that a line settles
-----------------------------------------------------------------------------------------

/-- Behind a token of a line there is the rest of the line, unless the token is an unterminated
string.
-/
theorem next?_of_line {text : List Char} {token : Token} {rest : List Char}
    (line : text.getLast? = some '\n') (next : next? text = some (token, rest))
    : rest.getLast? = some '\n' ∨ token = .unterminated (behindGap false text) := by
  unfold next? at next
  cases gap : behindGap false text with
  | nil => simp [gap] at next
  | cons c tail =>
      have front : c :: tail <:+ text := gap ▸ behindGap_suffix false text
      have last : (c :: tail).getLast? = some '\n' := by
        rw [Text.getLast?_of_suffix front (by simp), line]
      have tailLine : tail.getLast? = some '\n' := by
        cases tail with
        | cons d tail => simpa using last
        | nil =>
            have feed : c = '\n' := by simpa using last
            have visible := (head_behindGap gap).1
            rw [feed] at visible
            exact absurd visible (by decide)
      have stays {behind : List Char} (suffix : behind <:+ c :: tail) (nonempty : behind ≠ [])
          : behind.getLast? = some '\n' := by
        rw [Text.getLast?_of_suffix suffix nonempty, last]
      simp only [gap, Option.some.injEq, Prod.mk.injEq] at next
      obtain ⟨rfl, rfl⟩ := next
      unfold read
      split
      · exact .inl tailLine
      split
      · exact .inl tailLine
      split
      · next quote =>
          cases found : Fenced.read? (c :: tail) with
          | none => exact .inr rfl
          | some f =>
              exact .inl (stays ((Fenced.rest_read?_suffix found).trans (List.suffix_cons ..))
                (Fenced.rest_read?_ne_nil quote tailLine found))
      · refine .inl (stays (List.drop_suffix _ _) ?_)
        intro whole
        -- A word that takes the whole line would take its line feed, which is special.
        have all : leadingWord (c :: tail) = c :: tail :=
          (List.takeWhile_prefix _).eq_of_length_le (List.drop_eq_nil_iff.mp whole)
        have feed : '\n' ∈ leadingWord (c :: tail) := by
          rw [all]
          exact List.mem_of_getLast? last
        have plain := List.all_eq_true.mp List.all_takeWhile _ feed
        revert plain
        decide

/-- An unterminated string takes all the text behind the gap before it. -/
theorem next?_unterminated {text held rest : List Char}
    (next : next? text = some (.unterminated held, rest))
    : held = behindGap false text ∧ rest = [] := by
  unfold next? at next
  cases gap : behindGap false text with
  | nil => simp [gap] at next
  | cons c tail =>
      simp only [gap, Option.some.injEq, Prod.mk.injEq] at next
      obtain ⟨token, rfl⟩ := next
      unfold read at token ⊢
      split at token
      · cases token
      split at token
      · cases token
      split at token
      · next opening closing quote =>
          rw [if_neg opening, if_neg closing, if_pos quote]
          cases found : Fenced.read? (c :: tail) with
          | none => simp only [found] at token; cases token; exact ⟨rfl, rfl⟩
          | some f => simp only [found] at token; cases token
      · cases token

/-- The tokens of a text depend only on what is behind its first gap. -/
theorem sequence_congr {text other : List Char}
    (same : behindGap false text = behindGap false other)
    : sequence text = sequence other := by
  rw [sequence_eq, sequence_eq other, next?, next?, same]

/-- More text behind (text) leaves (tokens) as they are and is read on from (held): either
nothing, or an unterminated string from its first quote on.
-/
structure Settles (text : List Char) (tokens : List Token) (held : List Char) : Prop where
  terminated : ∀ rest, .unterminated rest ∉ tokens
  sequence_append : ∀ more, sequence (text ++ more) = tokens ++ sequence (held ++ more)
  sequence_held : sequence held = if held = [] then [] else [.unterminated held]

/-- The tokens of a text are those it settles and the string it leaves open. -/
theorem Settles.sequence_eq {text : List Char} {tokens : List Token} {held : List Char}
    (settles : Settles text tokens held)
    : sequence text = tokens ++ if held = [] then [] else [.unterminated held] := by
  have whole := settles.sequence_append []
  rwa [List.append_nil, List.append_nil, settles.sequence_held] at whole

/-- A text without tokens settles none and leaves nothing open if it ends in a line feed. -/
theorem settles_nil {text : List Char} (line : text.getLast? = some '\n')
    (next : next? text = none)
    : Settles text [] [] := by
  have gap : behindGap false text = [] := by
    unfold next? at next
    split at next
    · assumption
    · cases next
  refine ⟨by simp, fun more => ?_, by simp⟩
  exact sequence_congr (behindGap_append_of_line (.inl line) gap more)

/-- A text that starts with an unterminated string leaves that string open. -/
theorem settles_unterminated {text held rest : List Char}
    (next : next? text = some (.unterminated held, rest))
    : Settles text [] held := by
  obtain ⟨rfl, rfl⟩ := next?_unterminated next
  have again := behindGap_behindGap false text
  cases gap : behindGap false text with
  | nil => simp [next?, gap] at next
  | cons c tail =>
      rw [gap] at again next
      refine ⟨by simp, fun more => ?_, ?_⟩
      · exact sequence_congr
          ((behindGap_append gap more).trans (behindGap_append again more).symm)
      · have same : next? (c :: tail) = next? text := by rw [next?, next?, again, gap]
        rw [sequence_of_next?_some (same.trans next), sequence_nil, if_neg (by simp)]

/-- A complete token with the rest of a line behind it is settled, and what the rest settles. -/
theorem Settles.cons {text rest held : List Char} {token : Token} {tokens : List Token}
    (next : next? text = some (token, rest)) (behind : rest ≠ [])
    (terminated : ∀ left, token ≠ .unterminated left) (settles : Settles rest tokens held)
    : Settles text (token :: tokens) held := by
  refine ⟨fun left member => ?_, fun more => ?_, settles.sequence_held⟩
  · rcases List.mem_cons.mp member with same | later
    · exact terminated left same.symm
    · exact settles.terminated left later
  · rw [sequence_of_next?_some (next?_append next behind more), settles.sequence_append,
      List.cons_append]

/-- A text that ends in a line feed settles all its tokens but an unterminated string, by
induction on its length.
-/
theorem exists_settles {text : List Char} (line : text.getLast? = some '\n')
    : ∃ tokens held, Settles text tokens held := by
  induction size : text.length using Nat.strongRecOn generalizing text with
  | ind n ih =>
      cases next : next? text with
      | none => exact ⟨[], [], settles_nil line next⟩
      | some first =>
          obtain ⟨token, rest⟩ := first
          rcases next?_of_line line next with restLine | open'
          · by_cases isOpen : ∃ held, token = .unterminated held
            · obtain ⟨held, rfl⟩ := isOpen
              exact ⟨[], held, settles_unterminated next⟩
            · have behind : rest ≠ [] := by intro empty; simp [empty] at restLine
              obtain ⟨tokens, held, settles⟩ := ih _ (size ▸ length_next? next) restLine rfl
              exact ⟨token :: tokens, held,
                .cons next behind (fun left same => isOpen ⟨left, same⟩) settles⟩
          · exact ⟨[], _, settles_unterminated (open' ▸ next)⟩

end Token

end StackText
