import Mathlib
import StackText.Proofs.Reader.TokenPlaces
import StackText.Proofs.Text.WordsAndLines

/-! The scan of a text, turn by turn. Each turn passes a blank, a comment or a token, so the scan
comes to the end of the text in no more turns than the text has characters. What it finds tiles the
text: between the tokens there is nothing but blanks and comments.
-/

namespace StackText

open Text

namespace Token

-----------------------------------------------------------------------------------------
-- One turn
-----------------------------------------------------------------------------------------

/-- One turn of the scan: the token it finds, if any, and the offset it goes on from. -/
structure Turn where
  found : Option Lexeme
  next : Nat
  deriving DecidableEq, Repr

/-- The turn at an offset of a text. It passes a blank, a comment with the rest of its line, or a
token. There is none at the end of the text.
-/
def turn? (text : List Char) (position : Nat) : Option Turn :=
  match text.drop position with
  | [] => none
  | c :: rest =>
      if isBlank c then some ⟨none, position + 1⟩
      else if c = '#' then some ⟨none, position + (nextLine (c :: rest)).1.length⟩
      else
        let lexeme := (read position c rest).1
        some ⟨some lexeme, lexeme.stop⟩

/-- (Turns text position turns) holds if these are the turns of the scan from an offset on, up to
where there is none.
-/
inductive Turns (text : List Char) : Nat → List Turn → Prop
  | over {position} (ends : turn? text position = none)
    : Turns text position []
  | next {position turn turns} (here : turn? text position = some turn)
    (more : Turns text turn.next turns)
    : Turns text position (turn :: turns)

/-- The scan depends on a text by what stands behind its gap. -/
theorem scanFrom_of_skipGap_eq {position position' : Nat} {text text' : List Char}
    (same : skipGap false position text = skipGap false position' text') (done : List Lexeme)
    : scanFrom done position text = scanFrom done position' text' := by
  cases gap : skipGap false position' text' with
  | mk start behind =>
      have gap' := same.trans gap
      cases behind with
      | nil =>
          rw [scanFrom_of_behindGap_nil ((skipGap_snd ..).symm.trans (congrArg Prod.snd gap')),
            scanFrom_of_behindGap_nil ((skipGap_snd ..).symm.trans (congrArg Prod.snd gap))]
      | cons c rest => rw [scanFrom_of_skipGap gap', scanFrom_of_skipGap gap]

/-- A comment that is open ends with its line, by induction along the text. -/
theorem skipGap_line (position : Nat) (text : List Char)
    : skipGap true position text
      = skipGap false (position + (nextLine text).1.length) (nextLine text).2 := by
  induction text generalizing position with
  | nil => rfl
  | cons c rest ih =>
      by_cases feed : c = '\n'
      · subst feed
        have line := @nextLine_of_feed [] (by simp) rest
        rw [List.nil_append] at line
        simp [skipGap, line]
      · have inside : skipGap true position (c :: rest) = skipGap true (position + 1) rest := by
          simp [skipGap, feed]
        rw [inside, ih, nextLine_cons feed, List.length_cons, Nat.add_assoc, Nat.add_comm 1]

/-- A token takes up some text from its offset on, wherever that is. What stands before it only
matters to how far a word goes back, so blanks of the same length will do.
-/
theorem exists_span_read {c : Char} (visible : isBlank c = false) (code : c ≠ '#') (position : Nat)
    (rest : List Char)
    : ∃ token span behind,
        read position c rest = (⟨token, position, position + span.length⟩, behind)
        ∧ c :: rest = span ++ behind
        ∧ span ≠ [] := by
  have ends : EndsSpecial (List.replicate position ' ') := by
    intro d last
    rw [List.eq_of_mem_replicate (List.mem_of_getLast? last)]
    decide
  obtain ⟨token, span, behind, found, whole, fills⟩ :=
    @exists_fills_read c rest visible code _ (.inl ends)
  exact ⟨token, span, behind, by simpa using found, whole, fills.span_ne_nil⟩

/-- What a turn does at the end of a front: it passes some text, all of the token that it finds, and
the scan goes on behind that.
-/
structure Turn.Passes (turn : Turn) (front span behind : List Char) : Prop where
  nonempty : span ≠ []
  next : turn.next = (front ++ span).length
  found : ∀ lexeme ∈ turn.found, lexeme.start = front.length ∧ lexeme.stop = turn.next
  scan
    : ∀ done,
        scanFrom done front.length (span ++ behind)
        = scanFrom (turn.found.toList ++ done) turn.next behind

/-- There is a turn at every character, by cases on the character. -/
theorem exists_turn (front : List Char) (c : Char) (rest : List Char)
    : ∃ turn span behind,
        turn? (front ++ c :: rest) front.length = some turn
        ∧ c :: rest = span ++ behind
        ∧ turn.Passes front span behind := by
  rw [turn?, List.drop_left]
  by_cases blank : isBlank c = true
  · refine ⟨_, [c], rest, if_pos blank, rfl, by simp, by simp, by simp, fun done => ?_⟩
    exact scanFrom_of_skipGap_eq (by simp [skipGap, blank]) done
  · by_cases code : c = '#'
    · subst code
      have line := @nextLine_cons '#' (by decide) rest
      refine ⟨_, '#' :: (nextLine rest).1, (nextLine rest).2, (if_neg blank).trans (if_pos rfl), ?_,
        by simp, by simp [line], by simp, fun done => ?_⟩
      · rw [List.cons_append, nextLine_append]
      · rw [List.cons_append, nextLine_append]
        refine scanFrom_of_skipGap_eq ?_ done
        have opened : skipGap false front.length ('#' :: rest)
            = skipGap true (front.length + 1) rest := by
          simp [skipGap, blank]
        rw [opened, skipGap_line, line, List.length_cons, Nat.add_assoc, Nat.add_comm 1]
    · have visible : isBlank c = false := by simpa using blank
      obtain ⟨token, span, behind, found, whole, nonempty⟩ :=
        exists_span_read visible code front.length rest
      refine ⟨_, span, behind, (if_neg blank).trans (if_neg code), whole, nonempty, by simp [found],
        by simp [found], fun done => ?_⟩
      have here : skipGap false front.length (c :: rest) = (front.length, c :: rest) := by
        simp [skipGap, visible, code]
      rw [← whole, scanFrom_of_skipGap here, found]
      rfl

/-- Every turn advances, and by just the token that it finds. -/
theorem Turn.advances {text : List Char} {position : Nat} {turn : Turn}
    (here : turn? text position = some turn)
    : position < turn.next
      ∧ turn.next ≤ text.length
      ∧ ∀ lexeme ∈ turn.found, lexeme.start = position ∧ lexeme.stop = turn.next := by
  cases ahead : text.drop position with
  | nil => simp [turn?, ahead] at here
  | cons c rest =>
      have some : position < text.length := by
        have left := congrArg List.length ahead
        simp only [List.length_drop, List.length_cons] at left
        omega
      have split := List.take_append_drop position text
      have front : (text.take position).length = position := by simp; omega
      obtain ⟨turn', span, behind, known, whole, passes⟩ := exists_turn (text.take position) c rest
      rw [ahead] at split
      rw [split, front, here] at known
      cases known
      have taken := List.length_pos_iff.mpr passes.nonempty
      have next := passes.next
      have size := congrArg List.length split
      rw [whole] at size
      simp only [List.length_append, front] at next size
      refine ⟨by omega, by omega, ?_⟩
      simpa [front] using passes.found

-----------------------------------------------------------------------------------------
-- All turns
-----------------------------------------------------------------------------------------

/-- The scan from an offset on is a number of turns, at most one for each character, by induction on
the length of the text.
-/
theorem exists_turns (done : List Lexeme) (front text : List Char)
    : ∃ turns,
        Turns (front ++ text) front.length turns
        ∧ turns.length ≤ text.length
        ∧ scanFrom done front.length text = done.reverse ++ turns.filterMap Turn.found := by
  induction size : text.length using Nat.strongRecOn generalizing done front text with
  | ind n ih =>
      cases text with
      | nil =>
          have ended := @scanFrom_of_behindGap_nil [] rfl done front.length
          exact ⟨[], .over (by simp [turn?]), by simp, by simp [ended]⟩
      | cons c rest =>
          obtain ⟨turn, span, behind, here, whole, passes⟩ := exists_turn front c rest
          have taken := List.length_pos_iff.mpr passes.nonempty
          have both := congrArg List.length whole
          rw [size, List.length_append] at both
          obtain ⟨turns, more, count, scanned⟩ :=
            ih _ (by omega) (turn.found.toList ++ done) (front ++ span) behind rfl
          rw [← passes.next, List.append_assoc, ← whole] at more
          rw [← passes.next] at scanned
          refine ⟨turn :: turns, .next here more, by simp only [List.length_cons]; omega, ?_⟩
          rw [whole, passes.scan, scanned]
          cases found : turn.found with
          | none => simp [found]
          | some lexeme => simp [found]

-----------------------------------------------------------------------------------------
-- The text between tokens
-----------------------------------------------------------------------------------------

/-- A tiling can be cut behind any of its lexemes, by induction on those before the cut. -/
theorem Tiles.split {front text : List Char} {early late : List Lexeme}
    (tiles : Tiles front text (early ++ late))
    : ∃ passed rest,
        text = passed ++ rest
        ∧ early.getLast?.elim front.length Lexeme.stop = (front ++ passed).length
        ∧ Tiles (front ++ passed) rest late := by
  induction early generalizing front text with
  | nil => exact ⟨[], text, rfl, by simp, by simpa using tiles⟩
  | cons lexeme early ih =>
      cases tiles with
      | @token _ gap span rest token _ _ _ more =>
          obtain ⟨passed, rest, rfl, stop, tiles⟩ := ih more
          refine ⟨gap ++ span ++ passed, rest, by simp, ?_, by simpa using tiles⟩
          rw [elim_getLast?_cons, stop]
          simp

theorem extract_append (before span rest : List Char)
    : (before ++ (span ++ rest)).extract before.length (before ++ span).length = span := by
  simp [List.extract]

theorem Tiles.gap_before {text : List Char} {early late : List Lexeme} {lexeme : Lexeme}
    (tiles : Tiles [] text (early ++ lexeme :: late))
    : IsGap (text.extract (early.getLast?.elim 0 Lexeme.stop) lexeme.start) := by
  obtain ⟨passed, rest, rfl, stop, tiles⟩ := tiles.split
  cases tiles with
  | @token _ gap span rest _ _ isGap _ _ =>
      rw [show early.getLast?.elim 0 Lexeme.stop = passed.length from stop]
      exact (extract_append passed gap (span ++ rest)).symm ▸ isGap

theorem Tiles.gap_behind {text : List Char} {lexemes : List Lexeme} (tiles : Tiles [] text lexemes)
    : IsLastGap (text.drop (lexemes.getLast?.elim 0 Lexeme.stop)) := by
  rw [← List.append_nil lexemes] at tiles
  obtain ⟨passed, rest, rfl, stop, tiles⟩ := tiles.split
  cases tiles with
  | done isLast =>
      rw [show lexemes.getLast?.elim 0 Lexeme.stop = passed.length from stop, List.drop_left]
      exact isLast

/-- Each lexeme of a text is written between its offsets. -/
theorem fills_of_mem_scan {text : List Char} {lexeme : Lexeme} (member : lexeme ∈ scan text)
    : lexeme.start < lexeme.stop
      ∧ lexeme.stop ≤ text.length
      ∧ lexeme.token.Fills (text.take lexeme.start) (text.extract lexeme.start lexeme.stop)
          (text.drop lexeme.stop) := by
  obtain ⟨before, span, rest, whole, start, stop, fills⟩ := (tiles_scan text).exists_fills member
  obtain rfl : text = before ++ (span ++ rest) := whole
  have nonempty := List.length_pos_iff.mpr fills.span_ne_nil
  have behind : (before ++ (span ++ rest)).drop (before ++ span).length = rest := by
    rw [← List.append_assoc, List.drop_left]
  rw [start, stop, extract_append, List.take_left, behind]
  refine ⟨?_, ?_, fills⟩
  · simp only [List.length_append]; omega
  · simp only [List.length_append]; omega

/-- A string that has not ended goes to the end of the text. -/
theorem stop_of_unterminated {text held : List Char} {lexeme : Lexeme}
    (member : lexeme ∈ scan text) (unterminated : lexeme.token = .unterminated held)
    : lexeme.stop = text.length ∧ held = text.drop lexeme.start := by
  obtain ⟨nonempty, inside, fills⟩ := fills_of_mem_scan member
  rw [unterminated] at fills
  obtain ⟨quote, tail, _, _, span, none⟩ := fills
  have stop : lexeme.stop = text.length :=
    Nat.le_antisymm inside (List.drop_eq_nil_iff.mp none)
  refine ⟨stop, ?_⟩
  rw [← span, stop]
  simp [List.extract]

/-- The tokens tile the text. Every turn of the scan advances, to behind the token that it finds if
it finds one, and the scan ends. The tokens take up nonempty pieces of the text, apart and in order,
and between them, before the first and behind the last there are only blanks and comments, each up
to its line feed or the end of the text. A word has no special characters, and goes as far as it can
to both sides. A string that has not ended is the last token, the only one of its kind, and goes to
the end of the text. Witness: each turn passes a piece of the text, and the pieces that are passed
without a token make up the gaps.
-/
theorem scan_tiles_text (text : List Char)
    : (∀ position turn,
        turn? text position = some turn
        → position < turn.next
          ∧ turn.next ≤ text.length
          ∧ ∀ lexeme ∈ turn.found, lexeme.start = position ∧ lexeme.stop = turn.next)
      ∧ (∃ turns,
          Turns text 0 turns
          ∧ turns.length ≤ text.length
          ∧ turns.filterMap Turn.found = scan text)
      ∧ (∀ lexeme ∈ scan text, lexeme.start < lexeme.stop ∧ lexeme.stop ≤ text.length)
      ∧ ((scan text).Pairwise fun earlier later => earlier.stop ≤ later.start)
      ∧ (∀ early lexeme late,
          scan text = early ++ lexeme :: late
          → IsGap (text.extract (early.getLast?.elim 0 Lexeme.stop) lexeme.start))
      ∧ IsLastGap (text.drop ((scan text).getLast?.elim 0 Lexeme.stop))
      ∧ (∀ lexeme ∈ scan text,
          ∀ letters,
            lexeme.token = .word letters
            → text.extract lexeme.start lexeme.stop = letters
              ∧ letters ≠ []
              ∧ (∀ c ∈ letters, isSpecial c = false)
              ∧ EndsSpecial (text.take lexeme.start)
              ∧ StartsSpecial (text.drop lexeme.stop))
      ∧ ∀ early lexeme late held,
          scan text = early ++ lexeme :: late
          → lexeme.token = .unterminated held
          → late = []
            ∧ (∀ other ∈ early, ∀ held, other.token ≠ .unterminated held)
            ∧ lexeme.stop = text.length
            ∧ held = text.drop lexeme.start := by
  have tiles := tiles_scan text
  refine ⟨fun _ _ here => Turn.advances here, ?_, ?_, tiles.inOrder, ?_, tiles.gap_behind, ?_, ?_⟩
  · obtain ⟨turns, all, count, scanned⟩ := exists_turns [] [] text
    exact ⟨turns, all, count, scanned.symm⟩
  · intro lexeme member
    obtain ⟨nonempty, inside, _⟩ := fills_of_mem_scan member
    exact ⟨nonempty, inside⟩
  · intro early lexeme late split
    exact Tiles.gap_before (split ▸ tiles)
  · intro lexeme member letters word
    obtain ⟨_, _, fills⟩ := fills_of_mem_scan member
    rw [word] at fills
    exact fills
  · intro early lexeme late held split unterminated
    have inOrder := tiles.inOrder
    rw [split, List.pairwise_append, List.pairwise_cons] at inOrder
    obtain ⟨_, ⟨behind, _⟩, before⟩ := inOrder
    have member : lexeme ∈ scan text := by simp [split]
    obtain ⟨nonempty, inside, _⟩ := fills_of_mem_scan member
    obtain ⟨stop, rest⟩ := stop_of_unterminated member unterminated
    refine ⟨?_, ?_, stop, rest⟩
    · -- a later token would start at the end of the text
      refine List.eq_nil_iff_forall_not_mem.mpr fun other later => ?_
      obtain ⟨nonempty', inside', _⟩ := @fills_of_mem_scan text other (by simp [split, later])
      have := behind other later
      omega
    · intro other earlier held' unterminated'
      obtain ⟨stop', _⟩ :=
        @stop_of_unterminated text held' other (by simp [split, earlier]) unterminated'
      have := before other earlier lexeme List.mem_cons_self
      omega

/-- A comment between two tokens, a word right behind a string, and a string that has not ended. -/
theorem tiling_around_comment_and_strings
    : let text := "a #b\n('c'$d \"e".toList
      scan text = [
        ⟨.word ['a'], 0, 1⟩,
        ⟨.openBlock, 5, 6⟩,
        ⟨.string "c", 6, 9⟩,
        ⟨.word ['$', 'd'], 9, 11⟩,
        ⟨.unterminated ['"', 'e'], 12, 14⟩
      ]
      ∧ (∃ turns, Turns text 0 turns ∧ turns.length ≤ 14 ∧ turns.filterMap Turn.found = scan text)
      ∧ IsGap " #b\n".toList
      ∧ EndsSpecial "a #b\n('c'".toList
      ∧ StartsSpecial " \"e".toList
      ∧ text.drop 12 = ['"', 'e'] := by
  have scanned : scan "a #b\n('c'$d \"e".toList = [
      ⟨.word ['a'], 0, 1⟩,
      ⟨.openBlock, 5, 6⟩,
      ⟨.string "c", 6, 9⟩,
      ⟨.word ['$', 'd'], 9, 11⟩,
      ⟨.unterminated ['"', 'e'], 12, 14⟩
    ] := by
    cbv
  intro text
  obtain ⟨_, turns, _, _, gaps, _, words, strings⟩ := scan_tiles_text text
  obtain ⟨_, _, _, ends, starts⟩ :=
    words ⟨.word ['$', 'd'], 9, 11⟩ (by rw [scanned]; decide) _ rfl
  obtain ⟨_, _, _, held⟩ := strings [_, _, _, _] _ [] _ scanned rfl
  exact ⟨scanned, turns, gaps [_] _ _ scanned, ends, starts, held.symm⟩

end Token

end StackText
