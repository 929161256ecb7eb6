import Mathlib.Data.List.TakeDrop
import Mathlib.Data.List.TakeWhile
import StackText.Text.Blank
import StackText.Text.Lines

/-! The words and the first line of a text, as one would point at them. A word is a run of visible
characters that goes as far as it can to both sides; the first line is what stands before the first
line feed.
-/

namespace StackText.Text

-----------------------------------------------------------------------------------------
-- The first line
-----------------------------------------------------------------------------------------

theorem ne_lineFeed_of_not_mem {line : List Char} (noFeed : '\n' ∉ line)
    : ∀ c ∈ line, decide (c ≠ '\n') = true := by
  intro c member
  exact decide_eq_true fun feed => noFeed (feed ▸ member)

/-- A text up to its first line feed is its first line. -/
theorem nextLine_of_feed {line : List Char} (noFeed : '\n' ∉ line) (more : List Char)
    : nextLine (line ++ '\n' :: more) = (line ++ ['\n'], more) := by
  have inside := ne_lineFeed_of_not_mem noFeed
  rw [nextLine, List.span_eq_takeWhile_dropWhile, List.takeWhile_append_of_pos inside,
    List.dropWhile_append_of_pos inside]
  simp

/-- A text without line feeds is one line. -/
theorem nextLine_of_no_feed {text : List Char} (noFeed : '\n' ∉ text)
    : nextLine text = (text, []) := by
  have inside := ne_lineFeed_of_not_mem noFeed
  rw [nextLine, List.span_eq_takeWhile_dropWhile, List.takeWhile_eq_self_iff.mpr inside,
    List.dropWhile_eq_nil_iff.mpr inside]

theorem nextLine_append (text : List Char)
    : (nextLine text).1 ++ (nextLine text).2 = text := by
  by_cases feed : '\n' ∈ text
  · obtain ⟨line, more, rfl, noFeed⟩ := List.eq_append_cons_of_mem feed
    simp [nextLine_of_feed noFeed]
  · simp [nextLine_of_no_feed feed]

theorem nextLine_cons {c : Char} (other : c ≠ '\n') (text : List Char)
    : nextLine (c :: text) = (c :: (nextLine text).1, (nextLine text).2) := by
  by_cases feed : '\n' ∈ text
  · obtain ⟨line, more, rfl, noFeed⟩ := List.eq_append_cons_of_mem feed
    have noFeed' : '\n' ∉ c :: line := by simpa using ⟨other.symm, noFeed⟩
    rw [nextLine_of_feed noFeed, ← List.cons_append, nextLine_of_feed noFeed']
    rfl
  · have noFeed : '\n' ∉ c :: text := by simpa using ⟨other.symm, feed⟩
    rw [nextLine_of_no_feed feed, nextLine_of_no_feed noFeed]

theorem chomp_feed {line : List Char} (noReturn : line.getLast? ≠ some '\r')
    : chomp (line ++ ['\n']) = line := by
  have reversed : (line ++ ['\n']).reverse = '\n' :: line.reverse := by simp
  rw [chomp, reversed]
  split
  · next ends =>
      obtain ⟨_, tail⟩ := List.cons.inj ends
      have last : line.getLast? = some '\r' := by rw [← List.head?_reverse, tail]; rfl
      exact absurd last noReturn
  · next ends =>
      obtain ⟨_, tail⟩ := List.cons.inj ends
      rw [← tail, List.reverse_reverse]
  · next other => exact absurd rfl (other _)

theorem chomp_of_no_feed {line : List Char} (noFeed : '\n' ∉ line)
    : chomp line = line := by
  rw [chomp]
  split
  · next ends => exact absurd (List.mem_reverse.mp (by simp [ends])) noFeed
  · next ends => exact absurd (List.mem_reverse.mp (by simp [ends])) noFeed
  · rfl

/-- (FirstLine text line more) holds if a text starts with a line that more text follows. The line
feed that ends the line, and a carriage return right before that line feed, belong to neither. A
text without line feeds is one line, carriage returns and all.
-/
inductive FirstLine : List Char → List Char → List Char → Prop
  | feed {line more} (noFeed : '\n' ∉ line) (noReturn : line.getLast? ≠ some '\r')
    : FirstLine (line ++ '\n' :: more) line more
  | returnFeed {line more} (noFeed : '\n' ∉ line)
    : FirstLine (line ++ '\r' :: '\n' :: more) line more
  | last {line} (noFeed : '\n' ∉ line) (nonempty : line ≠ [])
    : FirstLine line line []

/-- What is split off as the next line is the first line with its end, by cases on the first line
feed and on the character before it.
-/
theorem firstLine_nextLine {text : List Char} (nonempty : text ≠ [])
    : FirstLine text (chomp (nextLine text).1) (nextLine text).2 ∧ (nextLine text).1 ≠ [] := by
  by_cases feed : '\n' ∈ text
  · obtain ⟨line, more, rfl, noFeed⟩ := List.eq_append_cons_of_mem feed
    rw [nextLine_of_feed noFeed]
    refine ⟨?_, by simp⟩
    by_cases ends : line.getLast? = some '\r'
    · obtain ⟨front, rfl⟩ := List.getLast?_eq_some_iff.mp ends
      have same : chomp (front ++ ['\r'] ++ ['\n']) = front := by simp [chomp]
      rw [same]
      simpa using FirstLine.returnFeed fun member => noFeed (by simp [member])
    · rw [chomp_feed ends]
      exact .feed noFeed ends
  · rw [nextLine_of_no_feed feed, chomp_of_no_feed feed]
    exact ⟨.last feed nonempty, nonempty⟩

/-- A text has no other first line than what is split off, by cases on how the line ends. -/
theorem FirstLine.eq_nextLine {text line more : List Char} (first : FirstLine text line more)
    : line = chomp (nextLine text).1 ∧ more = (nextLine text).2 := by
  cases first with
  | feed noFeed noReturn => simp [nextLine_of_feed noFeed, chomp_feed noReturn]
  | @returnFeed line more noFeed =>
      have before : '\n' ∉ line ++ ['\r'] := by simpa using noFeed
      have next := nextLine_of_feed before more
      rw [List.append_assoc, List.singleton_append] at next
      simp [next, chomp]
  | last noFeed => simp [nextLine_of_no_feed noFeed, chomp_of_no_feed noFeed]

-----------------------------------------------------------------------------------------
-- Words
-----------------------------------------------------------------------------------------

/-- (endsBlank text) holds if the last character of a text, if it has one, is blank. -/
def endsBlank (text : List Char) : Bool := text.getLast?.all isBlank

/-- (startsBlank text) holds if the first character of a text, if it has one, is blank. -/
def startsBlank (text : List Char) : Bool := text.head?.all isBlank

@[simp] theorem endsBlank_append_singleton (text : List Char) (c : Char)
    : endsBlank (text ++ [c]) = isBlank c := by
  simp [endsBlank]

/-- Some letters of a text, between what stands before and what stands behind them. -/
structure Word where
  before : List Char
  letters : List Char
  behind : List Char
  deriving DecidableEq, Repr

/-- (word.Stands text) holds of a word of a text: it is a run of visible characters, and it goes as
far as it can to both sides.
-/
structure Word.Stands (word : Word) (text : List Char) : Prop where
  whole : text = word.before ++ (word.letters ++ word.behind)
  nonempty : word.letters ≠ []
  visible : ∀ c ∈ word.letters, isBlank c = false
  leftmost : endsBlank word.before = true
  rightmost : startsBlank word.behind = true

/-- The visible characters at the start of a text that stands behind a front. -/
def Word.starting (front text : List Char) : Word :=
  ⟨front, text.takeWhile (!isBlank ·), text.dropWhile (!isBlank ·)⟩

/-- The words of a text that stands behind a front, in order. One starts at every visible character
that stands behind a blank or at the start.
-/
def wordsBehind (front : List Char) : List Char → List Word
  | [] => []
  | c :: rest =>
      let later := wordsBehind (front ++ [c]) rest
      if endsBlank front && !isBlank c then Word.starting front (c :: rest) :: later else later

/-- The words of a text in order. -/
def words (text : List Char) : List Word := wordsBehind [] text

theorem visible_takeWhile (text : List Char)
    : ∀ c ∈ text.takeWhile (!isBlank ·), isBlank c = false := by
  intro c member
  simpa using List.mem_takeWhile_imp member

theorem startsBlank_dropWhile (text : List Char)
    : startsBlank (text.dropWhile (!isBlank ·)) = true := by
  have stops := List.head?_dropWhile_not (!isBlank ·) text
  rw [startsBlank]
  cases head : (text.dropWhile (!isBlank ·)).head? with
  | none => rfl
  | some c => rw [head] at stops; simpa using stops

/-- Letters with a blank or nothing behind them are all that can be taken. -/
theorem takeWhile_letters {letters behind : List Char} (visible : ∀ c ∈ letters, isBlank c = false)
    (ends : startsBlank behind = true)
    : (letters ++ behind).takeWhile (!isBlank ·) = letters
      ∧ (letters ++ behind).dropWhile (!isBlank ·) = behind := by
  have inside : ∀ c ∈ letters, (!isBlank c) = true := by simpa using visible
  rw [List.takeWhile_append_of_pos inside, List.dropWhile_append_of_pos inside]
  cases behind with
  | nil => simp
  | cons b behind =>
      have blank : isBlank b = true := by simpa [startsBlank] using ends
      simp [blank]

/-- The word that starts right behind a front, if there is one, is what can be taken there. -/
theorem Word.stands_here_iff {front : List Char} {c : Char} {rest : List Char} {word : Word}
    : word.Stands (front ++ c :: rest) ∧ word.before.length = front.length
      ↔ (endsBlank front && !isBlank c) = true ∧ word = Word.starting front (c :: rest) := by
  constructor
  · rintro ⟨stands, same⟩
    obtain ⟨before, letters, behind⟩ := word
    obtain ⟨whole, nonempty, visible, leftmost, rightmost⟩ := stands
    obtain ⟨rfl, ahead⟩ := List.append_inj whole same.symm
    obtain ⟨taken, left⟩ := takeWhile_letters visible rightmost
    cases letters with
    | nil => exact absurd rfl nonempty
    | cons first letters =>
        obtain ⟨rfl, _⟩ : c = first ∧ _ := by simpa using ahead
        rw [Word.starting, ahead, taken, left]
        simpa using ⟨leftmost, visible c (by simp)⟩
  · rintro ⟨starts, rfl⟩
    obtain ⟨leftmost, visible⟩ : endsBlank front = true ∧ isBlank c = false := by simpa using starts
    refine ⟨⟨?_, ?_, visible_takeWhile _, leftmost, startsBlank_dropWhile _⟩, rfl⟩
    · simp only [Word.starting, List.takeWhile_append_dropWhile]
    · simp [Word.starting, visible]

/-- The words behind a front are all words of the text that start behind it, by induction along the
text.
-/
theorem mem_wordsBehind_iff {front text : List Char} {word : Word}
    : word ∈ wordsBehind front text
      ↔ word.Stands (front ++ text) ∧ front.length ≤ word.before.length := by
  induction text generalizing front with
  | nil =>
      simp only [wordsBehind, List.not_mem_nil, List.append_nil, false_iff, not_and]
      intro stands
      have letters := List.length_pos_iff.mpr stands.nonempty
      have whole := congrArg List.length stands.whole
      simp only [List.length_append] at whole
      omega
  | cons c rest ih =>
      have split : word.Stands (front ++ c :: rest) ∧ front.length ≤ word.before.length
          ↔ (word.Stands (front ++ c :: rest) ∧ word.before.length = front.length)
            ∨ word ∈ wordsBehind (front ++ [c]) rest := by
        rw [ih, List.append_assoc, List.singleton_append, ← and_or_left, List.length_append,
          List.length_singleton]
        exact and_congr_right fun _ => by omega
      rw [split, Word.stands_here_iff, wordsBehind]
      split <;> simp_all

/-- The words behind a front are in order, by induction along the text. -/
theorem wordsBehind_inOrder (front text : List Char)
    : (wordsBehind front text).Pairwise fun earlier later =>
        earlier.before.length < later.before.length := by
  induction text generalizing front with
  | nil => exact .nil
  | cons c rest ih =>
      rw [wordsBehind]
      split
      · refine .cons ?_ (ih _)
        intro later member
        have behind := (mem_wordsBehind_iff.mp member).2
        simp only [List.length_append, List.length_singleton] at behind
        exact behind
      · exact ih _

/-- The words of a text are its maximal runs of visible characters. -/
theorem mem_words_iff {text : List Char} {word : Word}
    : word ∈ words text ↔ word.Stands text := by
  simp [words, mem_wordsBehind_iff]

/-- The words of a text are listed in the order in which they stand. -/
theorem words_inOrder (text : List Char)
    : (words text).Pairwise fun earlier later => earlier.before.length < later.before.length :=
  wordsBehind_inOrder [] text

/-- No word starts in a gap. -/
theorem wordsBehind_blanks {gap : List Char} (blank : ∀ c ∈ gap, isBlank c = true)
    (front rest : List Char)
    : wordsBehind front (gap ++ rest) = wordsBehind (front ++ gap) rest := by
  induction gap generalizing front with
  | nil => simp
  | cons c gap ih =>
      obtain ⟨here, later⟩ := List.forall_mem_cons.mp blank
      rw [List.cons_append, wordsBehind, if_neg (by simp [here]), ih later]
      simp

/-- No word starts inside a word. -/
theorem wordsBehind_letters {letters : List Char} (visible : ∀ c ∈ letters, isBlank c = false)
    {front : List Char} (inside : endsBlank front = false) (rest : List Char)
    : wordsBehind front (letters ++ rest) = wordsBehind (front ++ letters) rest := by
  induction letters generalizing front with
  | nil => simp
  | cons c letters ih =>
      obtain ⟨here, later⟩ := List.forall_mem_cons.mp visible
      rw [List.cons_append, wordsBehind, if_neg (by simp [inside]), ih later (by simp [here])]
      simp

/-- What the last of some elements gives, or a default if there are none. -/
theorem elim_getLast?_cons {α β : Type} (f : α → β) (none : β) (a : α) (more : List α)
    : (a :: more).getLast?.elim none f = more.getLast?.elim (f a) f := by
  rw [List.getLast?_cons]
  cases more.getLast? with
  | none => rfl
  | some last => rfl

/-- What is left of a text when a word has been taken from it, together with the one blank behind
it.
-/
def Word.left (word : Word) : List Char := word.behind.drop 1

theorem endsBlank_append_blanks {front gap : List Char} (apart : endsBlank front = true)
    (blank : ∀ c ∈ gap, isBlank c = true)
    : endsBlank (front ++ gap) = true := by
  rcases List.eq_nil_or_concat gap with rfl | ⟨start, c, rfl⟩
  · simpa using apart
  · rw [List.concat_eq_append, ← List.append_assoc, endsBlank_append_singleton]
    exact blank c (by simp)

/-- Blanks at the start of a text do not change its words. -/
theorem wordsBehind_dropWhile {front : List Char} (apart : endsBlank front = true)
    (text : List Char)
    : ∃ front',
        endsBlank front' = true
        ∧ wordsBehind front text = wordsBehind front' (text.dropWhile isBlank) := by
  have blank : ∀ c ∈ text.takeWhile isBlank, isBlank c = true := fun _ => List.mem_takeWhile_imp
  refine ⟨front ++ text.takeWhile isBlank, endsBlank_append_blanks apart blank, ?_⟩
  rw [← wordsBehind_blanks blank, List.takeWhile_append_dropWhile]

theorem dropWhile_of_wordsBehind_nil {front text : List Char} (apart : endsBlank front = true)
    (none : wordsBehind front text = [])
    : text.dropWhile isBlank = [] := by
  obtain ⟨front', apart', same⟩ := wordsBehind_dropWhile apart text
  have stops := List.head?_dropWhile_not isBlank text
  cases ahead : text.dropWhile isBlank with
  | nil => rfl
  | cons c rest =>
      rw [ahead] at same stops
      rw [same, wordsBehind, if_pos (by simpa [apart'] using stops)] at none
      cases none

/-- The first word of a text is what can be taken behind its blanks, and the further words are those
of what is left behind it.
-/
theorem first_of_wordsBehind {front text : List Char} (apart : endsBlank front = true) {word : Word}
    {later : List Word} (words : wordsBehind front text = word :: later)
    : (text.dropWhile isBlank).span (!isBlank ·) = (word.letters, word.behind)
      ∧ ∃ front', endsBlank front' = true ∧ wordsBehind front' word.left = later := by
  obtain ⟨front', apart', same⟩ := wordsBehind_dropWhile apart text
  have stops := List.head?_dropWhile_not isBlank text
  rw [List.span_eq_takeWhile_dropWhile]
  cases ahead : text.dropWhile isBlank with
  | nil =>
      rw [same, ahead] at words
      cases words
  | cons c rest =>
      rw [ahead] at same stops
      have visible : isBlank c = false := by simpa using stops
      rw [same, wordsBehind, if_pos (by simp [apart', visible])] at words
      cases words
      refine ⟨rfl, ?_⟩
      have behind : (Word.starting front' (c :: rest)).left
          = (rest.dropWhile (!isBlank ·)).drop 1 := by
        simp [Word.left, Word.starting, visible]
      have inside := @wordsBehind_letters _ (visible_takeWhile rest) (front' ++ [c])
        (by simp [visible]) (rest.dropWhile (!isBlank ·))
      rw [List.takeWhile_append_dropWhile] at inside
      rw [behind, inside]
      have ends := startsBlank_dropWhile rest
      -- a word at the end of the text leaves nothing, and then any front will do
      cases afterwards : rest.dropWhile (!isBlank ·) with
      | nil => exact ⟨[], rfl, rfl⟩
      | cons b more =>
          rw [afterwards] at ends
          have blank : isBlank b = true := by simpa [startsBlank] using ends
          refine ⟨front' ++ [c] ++ rest.takeWhile (!isBlank ·) ++ [b], ?_, ?_⟩
          · rw [endsBlank_append_singleton, blank]
          · exact (@wordsBehind_blanks [b] (by simpa using blank) _ more).symm

end StackText.Text
