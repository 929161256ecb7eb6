import StackText.Proofs.Reader.FenceGrammar
import StackText.Proofs.Reader.TokenSequence

/-! Where the tokens of a text stand. The tokens and the gaps between them make up the text from its
start to its end, so each token is written at its offsets, and they come in order. A word that
stands for a variable is spelled from the name.
-/

namespace StackText

namespace Text

/-- (EndsSpecial text) holds if the last character of a text, if it has one, ends words. -/
def EndsSpecial (text : List Char) : Prop := ∀ c ∈ text.getLast?, isSpecial c = true

/-- (StartsSpecial text) holds if the first character of a text, if it has one, ends words. -/
def StartsSpecial (text : List Char) : Prop := ∀ c ∈ text.head?, isSpecial c = true

theorem endsSpecial_append_singleton {c : Char} (special : isSpecial c = true) (text : List Char)
    : EndsSpecial (text ++ [c]) := by
  simpa [EndsSpecial] using special

theorem isSpecial_of_isBlank {c : Char} (blank : isBlank c = true)
    : isSpecial c = true := by
  simp [isSpecial, blank]

theorem isSpecial_of_isQuote {c : Char} (quote : isQuote c = true)
    : isSpecial c = true := by
  simp [isSpecial, quote]

theorem lineFeed_not_mem_of_plain {letters : List Char}
    (plain : ∀ c ∈ letters, isSpecial c = false)
    : '\n' ∉ letters := by
  intro feed
  exact absurd (plain _ feed) (by decide)

end Text

open Text

/-- A string that is read starts and ends with its quote. -/
theorem Fenced.exists_span {quote : Char} {rest : List Char} {f : Fenced}
    (read : read? (quote :: rest) = some f)
    : ∃ inside,
        quote :: rest = quote :: inside ++ [quote] ++ f.rest ∧ f.size = inside.length + 2 := by
  have opening : (rest.takeWhile (· = quote)).length ≤ rest.length :=
    (List.takeWhile_sublist _).length_le
  simp only [read?, openingRun, Nat.add_sub_cancel] at read
  generalize (rest.takeWhile (· = quote)).length = more at read opening
  obtain ⟨body, splits, _, count⟩ := splitsFirst_of_readBody read
  have whole : rest.drop more = body ++ (List.replicate (more + 1) quote ++ f.rest) := splits.whole
  refine ⟨rest.take more ++ body ++ List.replicate more quote, ?_, ?_⟩
  · nth_rewrite 1 [← List.take_append_drop more rest]
    rw [whole, List.replicate_succ']
    simp
  · simp only [List.length_append, List.length_take, List.length_replicate]
    omega

namespace Token

-----------------------------------------------------------------------------------------
-- Gaps
-----------------------------------------------------------------------------------------

/-- (IsGap text) holds of blanks and of comments, each with the line feed that ends it. -/
inductive IsGap : List Char → Prop
  | nil
    : IsGap []
  | blank {c rest} (blank : isBlank c = true) (more : IsGap rest)
    : IsGap (c :: rest)
  | comment {body rest} (line : '\n' ∉ body) (more : IsGap rest)
    : IsGap ('#' :: (body ++ '\n' :: rest))

/-- (IsLastGap text) holds of a gap that may end in a comment without a line feed. -/
def IsLastGap (text : List Char) : Prop :=
  IsGap text ∨ ∃ gap body, text = gap ++ '#' :: body ∧ IsGap gap ∧ '\n' ∉ body

theorem IsGap.endsSpecial {gap : List Char} (isGap : IsGap gap) {front : List Char}
    (bounded : EndsSpecial front ∨ gap ≠ [])
    : EndsSpecial (front ++ gap) := by
  induction isGap generalizing front with
  | nil => simpa using bounded
  | @blank c rest blank _ ih =>
      have here := endsSpecial_append_singleton (isSpecial_of_isBlank blank) front
      simpa using ih (.inl here)
  | @comment body rest _ _ ih =>
      have here := @endsSpecial_append_singleton '\n' (by decide) (front ++ '#' :: body)
      simpa using ih (.inl here)

/-- A gap that starts inside a comment is that of the comment as a whole. -/
theorem IsGap.inside {c : Char} (other : c ≠ '\n') {gap : List Char} (isGap : IsGap ('#' :: gap))
    : IsGap ('#' :: c :: gap) := by
  generalize whole : '#' :: gap = text at isGap
  cases isGap with
  | nil => cases whole
  | blank blank more =>
      cases whole
      exact absurd blank (by decide)
  | @comment body rest line more =>
      cases whole
      refine @IsGap.comment (c :: body) rest ?_ more
      simpa using ⟨Ne.symm other, line⟩

/-- An empty comment and its line feed in front of a gap. -/
theorem IsGap.afterFeed {gap : List Char} (isGap : IsGap gap)
    : IsGap ('#' :: '\n' :: gap) :=
  @IsGap.comment [] gap (by simp) isGap

theorem IsLastGap.blank {c : Char} (blank : isBlank c = true) {text : List Char}
    (isGap : IsLastGap text)
    : IsLastGap (c :: text) := by
  rcases isGap with isGap | ⟨gap, body, rfl, isGap, line⟩
  · exact .inl (isGap.blank blank)
  · exact .inr ⟨c :: gap, body, rfl, isGap.blank blank, line⟩

theorem IsLastGap.inside {c : Char} {text : List Char} (isGap : IsLastGap ('#' :: text))
    (other : c ≠ '\n')
    : IsLastGap ('#' :: c :: text) := by
  rcases isGap with isGap | ⟨gap, body, whole, isGap, line⟩
  · exact .inl (isGap.inside other)
  · cases gap with
    | nil =>
        cases whole
        exact .inr ⟨[], c :: text, rfl, .nil, by simpa using ⟨Ne.symm other, line⟩⟩
    | cons first gap =>
        cases whole
        exact .inr ⟨'#' :: c :: gap, body, rfl, isGap.inside other, line⟩

theorem IsLastGap.afterFeed {text : List Char} (isGap : IsLastGap text)
    : IsLastGap ('#' :: '\n' :: text) := by
  rcases isGap with isGap | ⟨gap, body, rfl, isGap, line⟩
  · exact .inl isGap.afterFeed
  · exact .inr ⟨'#' :: '\n' :: gap, body, rfl, isGap.afterFeed, line⟩

/-- What is passed in front of a token is a gap, by induction along the text. A gap that starts
inside a comment is one once the start of the comment is put in front.
-/
theorem exists_gap (comment : Bool) (position : Nat) (text : List Char)
    : ∃ gap,
        text = gap ++ behindGap comment text
        ∧ (skipGap comment position text).1 = position + gap.length
        ∧ (behindGap comment text ≠ [] → IsGap ((if comment then ['#'] else []) ++ gap))
        ∧ (behindGap comment text = [] → IsLastGap ((if comment then ['#'] else []) ++ gap)) := by
  fun_induction skipGap comment position text with
  | case1 comment position =>
      refine ⟨[], rfl, rfl, fun more => absurd rfl more, fun _ => ?_⟩
      cases comment with
      | false => exact .inl .nil
      | true => exact .inr ⟨[], [], rfl, .nil, by simp⟩
  | case2 position c rest ih =>
      obtain ⟨gap, whole, start, isGap, isLast⟩ := ih
      have behind : behindGap true (c :: rest) = behindGap (c ≠ '\n') rest := by simp [behindGap]
      rw [behind]
      refine ⟨c :: gap, congrArg (c :: ·) whole, by simp only [start, List.length_cons]; omega, ?_⟩
      by_cases feed : c = '\n'
      · subst feed
        exact ⟨fun more => .afterFeed (by simpa using isGap more),
          fun none => .afterFeed (by simpa using isLast none)⟩
      · exact ⟨fun more => .inside feed (by simpa [feed] using isGap more),
          fun none => .inside (by simpa [feed] using isLast none) feed⟩
  | case3 comment position c rest code blank ih =>
      obtain ⟨gap, whole, start, isGap, isLast⟩ := ih
      have behind : behindGap comment (c :: rest) = behindGap false rest := by
        simp [behindGap, code, blank]
      rw [behind]
      refine ⟨c :: gap, congrArg (c :: ·) whole, by simp only [start, List.length_cons]; omega, ?_⟩
      simp only [code]
      exact ⟨fun more => .blank blank (isGap more), fun none => .blank blank (isLast none)⟩
  | case4 comment position rest code blank ih =>
      obtain ⟨gap, whole, start, isGap, isLast⟩ := ih
      have behind : behindGap comment ('#' :: rest) = behindGap true rest := by
        simp [behindGap, code, blank]
      rw [behind]
      refine ⟨'#' :: gap, congrArg ('#' :: ·) whole, by simp only [start, List.length_cons]; omega,
        ?_⟩
      simp only [code]
      exact ⟨isGap, isLast⟩
  | case5 comment position c rest code blank other =>
      have behind : behindGap comment (c :: rest) = c :: rest := by
        simp [behindGap, code, blank, other]
      rw [behind]
      refine ⟨[], rfl, rfl, ?_, by simp⟩
      simp only [code]
      exact fun _ => .nil

-----------------------------------------------------------------------------------------
-- Tokens
-----------------------------------------------------------------------------------------

/-- (token.Fills front span rest) holds if a token is written as a span of text between a front and
a rest. A word goes as far as it can to both sides.
-/
def Fills (front span rest : List Char) : Token → Prop
  | .openBlock => span = ['(']
  | .closeBlock => span = [')']
  | .string text =>
      ∃ quote inside f,
        isQuote quote = true
        ∧ span = quote :: inside ++ [quote]
        ∧ Fenced.read? (span ++ rest) = some f
        ∧ f.rest = rest
        ∧ text = String.ofList f.text
  | .word letters =>
      span = letters
      ∧ letters ≠ []
      ∧ (∀ c ∈ letters, isSpecial c = false)
      ∧ EndsSpecial front
      ∧ StartsSpecial rest
  | .unterminated held =>
      ∃ quote tail, isQuote quote = true ∧ held = quote :: tail ∧ span = held ∧ rest = []

theorem Fills.span_ne_nil {token : Token} {front span rest : List Char}
    (fills : token.Fills front span rest)
    : span ≠ [] := by
  cases token with
  | openBlock | closeBlock =>
      rw [show span = _ from fills]
      simp
  | string text =>
      obtain ⟨quote, inside, f, _, rfl, _⟩ := fills
      simp
  | word letters =>
      obtain ⟨rfl, nonempty, _⟩ := fills
      exact nonempty
  | unterminated held =>
      obtain ⟨quote, tail, _, rfl, rfl, _⟩ := fills
      simp

/-- No word can go on over the end of a token. -/
theorem Fills.bounded {token : Token} {front span rest : List Char}
    (fills : token.Fills front span rest)
    : EndsSpecial (front ++ span) ∨ StartsSpecial rest := by
  cases token with
  | openBlock | closeBlock =>
      rw [show span = _ from fills]
      exact .inl (endsSpecial_append_singleton (by decide) front)
  | string text =>
      obtain ⟨quote, inside, f, isQuote, rfl, _⟩ := fills
      refine .inl ?_
      rw [← List.append_assoc]
      exact endsSpecial_append_singleton (isSpecial_of_isQuote isQuote) _
  | word letters => exact .inr fills.2.2.2.2
  | unterminated held =>
      obtain ⟨quote, tail, _, _, _, rfl⟩ := fills
      exact .inr (by simp [StartsSpecial])

/-- The token that a character opens fills the text up to what is left behind it, by cases on the
character.
-/
theorem exists_fills_read {c : Char} {rest : List Char} (blank : isBlank c = false) (code : c ≠ '#')
    {front : List Char} (bounded : EndsSpecial front ∨ isSpecial c = true)
    : ∃ token span behind,
        read front.length c rest = (⟨token, front.length, (front ++ span).length⟩, behind)
        ∧ c :: rest = span ++ behind
        ∧ token.Fills front span behind := by
  unfold read
  split
  · next opens => exact ⟨.openBlock, ['('], rest, by simp, by simp [opens], rfl⟩
  split
  · next closes => exact ⟨.closeBlock, [')'], rest, by simp, by simp [closes], rfl⟩
  split
  · next quote =>
      split
      · next f found =>
          obtain ⟨inside, whole, size⟩ := Fenced.exists_span found
          refine ⟨.string (String.ofList f.text), c :: inside ++ [c], f.rest, by simp [size], whole,
            c, inside, f, quote, rfl, ?_, rfl, rfl⟩
          rw [← found, whole]
      · exact ⟨.unterminated (c :: rest), c :: rest, [], by simp; omega, by simp, c, rest, quote,
          rfl, rfl, rfl⟩
  · next opens closes quote =>
      have plain := isSpecial_of_other (by simp [blank]) code quote opens closes
      have behind : (c :: rest).drop (leadingWord (c :: rest)).length
          = (c :: rest).dropWhile (!isSpecial ·) :=
        (congrArg (List.drop _) List.takeWhile_append_dropWhile.symm).trans List.drop_left
      simp only [behind]
      refine ⟨.word (leadingWord (c :: rest)), leadingWord (c :: rest),
        (c :: rest).dropWhile (!isSpecial ·), by simp, List.takeWhile_append_dropWhile.symm, rfl,
        by simp [leadingWord_cons plain], ?_, bounded.resolve_right (by simp [plain]), ?_⟩
      · intro d member
        simpa using List.mem_takeWhile_imp member
      · intro d head
        have stops := List.head?_dropWhile_not (!isSpecial ·) (c :: rest)
        rw [head] at stops
        simpa using stops

-----------------------------------------------------------------------------------------
-- All tokens of a text
-----------------------------------------------------------------------------------------

/-- (Tiles front text lexemes) holds if a text that stands behind a front consists of the lexemes,
with gaps between them.
-/
inductive Tiles : List Char → List Char → List Lexeme → Prop
  | done {front gap} (isLast : IsLastGap gap)
    : Tiles front gap []
  | token {front gap span rest token lexemes} (isGap : IsGap gap)
    (fills : token.Fills (front ++ gap) span rest)
    (more : Tiles (front ++ gap ++ span) rest lexemes)
    : Tiles front (gap ++ (span ++ rest))
        (⟨token, (front ++ gap).length, (front ++ gap ++ span).length⟩ :: lexemes)

theorem scanFrom_of_skipGap {position start : Nat} {text rest : List Char} {c : Char}
    (gap : skipGap false position text = (start, c :: rest)) (done : List Lexeme)
    : scanFrom done position text
      = scanFrom ((read start c rest).1 :: done) (read start c rest).1.stop
          (read start c rest).2 := by
  conv => lhs; unfold scanFrom
  split
  · next found => cases found.symm.trans gap
  · next found => cases found.symm.trans gap; rfl

/-- The lexemes found from an offset on tile the text there, by induction on the length of the text.
A word that starts right there does not continue one in front of the text.
-/
theorem exists_tiles (done : List Lexeme) {front text : List Char}
    (bounded : EndsSpecial front ∨ StartsSpecial text)
    : ∃ lexemes,
        scanFrom done front.length text = done.reverse ++ lexemes ∧ Tiles front text lexemes := by
  induction size : text.length using Nat.strongRecOn generalizing done front text with
  | ind n ih =>
      obtain ⟨gap, whole, start, isGap, isLast⟩ := exists_gap false front.length text
      cases behind : behindGap false text with
      | nil =>
          refine ⟨[], by simp [scanFrom_of_behindGap_nil behind], .done ?_⟩
          rw [whole, behind, List.append_nil]
          exact isLast behind
      | cons c rest =>
          have isGap : IsGap gap := isGap (by simp [behind])
          have passed : skipGap false front.length text = ((front ++ gap).length, c :: rest) :=
            Prod.ext (by simp [start]) ((skipGap_snd ..).trans behind)
          obtain ⟨visible, code⟩ := head_behindGap behind
          rw [behind] at whole
          have apart : EndsSpecial (front ++ gap) ∨ isSpecial c = true := by
            by_cases empty : gap = []
            · subst empty
              refine bounded.imp (fun ends => isGap.endsSpecial (.inl ends)) fun starts => ?_
              exact starts c (by simp [whole])
            · exact .inl (isGap.endsSpecial (.inr empty))
          obtain ⟨token, span, more, found, first, fills⟩ :=
            @exists_fills_read c rest visible code (front ++ gap) apart
          have shorter : more.length < n := by
            have taken := List.length_pos_iff.mpr fills.span_ne_nil
            rw [← size, whole, first]
            simp only [List.length_append]
            omega
          obtain ⟨lexemes, scanned, tiles⟩ :=
            ih _ shorter (⟨token, (front ++ gap).length, (front ++ gap ++ span).length⟩ :: done)
              fills.bounded rfl
          rw [scanFrom_of_skipGap passed, found, scanned, whole, first]
          exact ⟨_, by simp, .token isGap fills tiles⟩

/-- The lexemes of a text tile it. -/
theorem tiles_scan (text : List Char)
    : Tiles [] text (scan text) := by
  obtain ⟨lexemes, scanned, tiles⟩ := @exists_tiles [] [] text (.inl (by simp [EndsSpecial]))
  rw [scan]
  exact scanned ▸ tiles

/-- Each lexeme is written between its offsets, by induction on the lexemes. -/
theorem Tiles.exists_fills {front text : List Char} {lexemes : List Lexeme}
    (tiles : Tiles front text lexemes) {lexeme : Lexeme} (member : lexeme ∈ lexemes)
    : ∃ before span rest,
        front ++ text = before ++ (span ++ rest)
        ∧ lexeme.start = before.length
        ∧ lexeme.stop = (before ++ span).length
        ∧ lexeme.token.Fills before span rest := by
  induction tiles with
  | done => cases member
  | @token front gap span rest token lexemes _ fills _ ih =>
      rcases List.mem_cons.mp member with rfl | later
      · exact ⟨front ++ gap, span, rest, by simp, rfl, rfl, fills⟩
      · simpa using ih later

/-- Lexemes do not start before the front ends, by induction on them. -/
theorem Tiles.length_le_start {front text : List Char} {lexemes : List Lexeme}
    (tiles : Tiles front text lexemes) {lexeme : Lexeme} (member : lexeme ∈ lexemes)
    : front.length ≤ lexeme.start := by
  induction tiles with
  | done => cases member
  | token _ _ _ ih =>
      rcases List.mem_cons.mp member with rfl | later
      · simp
      · have behind := ih later
        simp only [List.length_append] at behind
        omega

/-- Each lexeme starts where those before it have stopped, or behind that, by induction on them. -/
theorem Tiles.inOrder {front text : List Char} {lexemes : List Lexeme}
    (tiles : Tiles front text lexemes)
    : lexemes.Pairwise fun earlier later => earlier.stop ≤ later.start := by
  induction tiles with
  | done => exact .nil
  | token _ _ more ih => exact .cons (fun _ later => more.length_le_start later) ih

/-- Words have no characters that end words. -/
theorem plain_of_mem_sequence {text letters : List Char} (member : .word letters ∈ sequence text)
    : ∀ c ∈ letters, isSpecial c = false := by
  obtain ⟨lexeme, scanned, token⟩ := List.mem_map.mp member
  obtain ⟨_, span, _, _, _, _, fills⟩ := (tiles_scan text).exists_fills scanned
  rw [token] at fills
  obtain ⟨rfl, _, plain, _⟩ := fills
  exact plain

end Token

-----------------------------------------------------------------------------------------
-- Words and what they mean
-----------------------------------------------------------------------------------------

namespace Term

/-- The word that means a term; a number has many. -/
def letters? : Term → Option (List Char)
  | .assign name => some ('$' :: '=' :: name.toList)
  | .load name => some ('$' :: name.toList)
  | .call name => some name.toList
  | .number _ => none

theorem letters_of_ofWord {word letters : List Char} {term : Term}
    (meaning : ofWord word = .ok term) (spelling : term.letters? = some letters)
    : word = letters := by
  rw [ofWord.eq_def] at meaning
  split at meaning
  · cases meaning; cases spelling; simp
  · cases meaning; cases spelling; simp
  · split at meaning
    · cases meaning
    · cases meaning; cases spelling
    · cases meaning; cases spelling; simp

end Term

end StackText
