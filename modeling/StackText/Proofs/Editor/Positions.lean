import StackText.Editor.Index
import StackText.Proofs.Text.WordsAndLines

/-! Positions in a text: the line feeds in front of a place and the characters since the last of
them. A walk keeps count of both, later places have later positions, and at the line and the column
of a place stands what stands at the place.
-/

namespace StackText

-----------------------------------------------------------------------------------------
-- The last line of a text
-----------------------------------------------------------------------------------------

namespace Text

/-- The part of a text behind its last line feed. -/
def lastLine (text : List Char) : List Char := (text.reverse.takeWhile (· ≠ '\n')).reverse

theorem lineFeed_not_mem_lastLine (text : List Char)
    : '\n' ∉ lastLine text := by
  intro member
  simpa using List.mem_takeWhile_imp (List.mem_reverse.mp member)

theorem lastLine_suffix (text : List Char)
    : lastLine text <:+ text := by
  rw [← List.reverse_prefix, lastLine, List.reverse_reverse]
  exact List.takeWhile_prefix _

theorem lastLine_append_of_not_mem {more : List Char} (line : '\n' ∉ more) (text : List Char)
    : lastLine (text ++ more) = lastLine text ++ more := by
  have other := ne_lineFeed_of_not_mem (mt List.mem_reverse.mp line)
  rw [lastLine, List.reverse_append, List.takeWhile_append_of_pos other]
  simp [lastLine]

theorem lastLine_append_lineFeed (text rest : List Char)
    : lastLine (text ++ '\n' :: rest) = lastLine rest := by
  rw [lastLine, List.reverse_append, List.reverse_cons, List.append_assoc, List.takeWhile_append]
  split
  · next whole =>
      rw [lastLine, (List.takeWhile_prefix _).eq_of_length whole]
      simp
  · rfl

/-- A text is its last line, with a line feed in front of it unless it is the only one. -/
theorem eq_lastLine_or_exists (text : List Char)
    : text = lastLine text ∨ ∃ early, text = early ++ '\n' :: lastLine text := by
  have whole : text = (text.reverse.dropWhile (· ≠ '\n')).reverse ++ lastLine text := by
    rw [lastLine, ← List.reverse_append, List.takeWhile_append_dropWhile, List.reverse_reverse]
  cases behind : text.reverse.dropWhile (· ≠ '\n') with
  | nil =>
      rw [behind] at whole
      exact .inl whole
  | cons c early =>
      have stops := List.head?_dropWhile_not (· ≠ '\n') text.reverse
      rw [behind] at whole stops
      obtain rfl : c = '\n' := by simpa using stops
      exact .inr ⟨early.reverse, by simpa using whole⟩

-----------------------------------------------------------------------------------------
-- Lines cut at line feeds
-----------------------------------------------------------------------------------------

theorem length_splitOn_lineFeed (text : List Char)
    : (text.splitOn '\n').length = text.count '\n' + 1 := by
  induction text with
  | nil => rfl
  | cons c text ih =>
      rw [List.splitOn_cons_eq_if_modifyHead, List.count_cons]
      split <;> simp [ih]

theorem head?_splitOn_lineFeed (text : List Char)
    : (text.splitOn '\n').head? = some (text.takeWhile (· ≠ '\n')) := by
  induction text with
  | nil => rfl
  | cons c text ih =>
      rw [List.splitOn_cons_eq_if_modifyHead]
      split
      · next feed => simp [beq_iff_eq.mp feed]
      · next other => simp [ih, show c ≠ '\n' by simpa using other]

/-- The line that a front runs into: as many lines are before it as there are line feeds in the
front.
-/
theorem getElem?_splitOn_lineFeed (front rest : List Char)
    : ((front ++ rest).splitOn '\n')[front.count '\n']?
      = some (lastLine front ++ rest.takeWhile (· ≠ '\n')) := by
  have unbroken := lineFeed_not_mem_lastLine front
  have first := head?_splitOn_lineFeed (lastLine front ++ rest)
  rw [List.takeWhile_append_of_pos (ne_lineFeed_of_not_mem unbroken), List.head?_eq_getElem?]
    at first
  have none := List.count_eq_zero.mpr unbroken
  rcases eq_lastLine_or_exists front with only | ⟨early, whole⟩
  · rw [← only] at first none ⊢
    rw [none]
    exact first
  · have lines : (front ++ rest).splitOn '\n'
        = early.splitOn '\n' ++ (lastLine front ++ rest).splitOn '\n' := by
      calc (front ++ rest).splitOn '\n'
        _ = (early ++ '\n' :: (lastLine front ++ rest)).splitOn '\n' :=
            congrArg (List.splitOn '\n') (by simpa using congrArg (· ++ rest) whole)
        _ = early.splitOn '\n' ++ (lastLine front ++ rest).splitOn '\n' :=
            List.splitOn_append_cons_self early (lastLine front ++ rest)
    have before : front.count '\n' = (early.splitOn '\n').length := by
      calc front.count '\n'
        _ = (early ++ '\n' :: lastLine front).count '\n' := congrArg (List.count '\n') whole
        _ = (early.splitOn '\n').length := by simp [none, length_splitOn_lineFeed]
    rw [lines, before, List.getElem?_append_right (Nat.le_refl _), Nat.sub_self]
    exact first

end Text

open Text

-----------------------------------------------------------------------------------------
-- Positions
-----------------------------------------------------------------------------------------

namespace Position

/-- The position right behind a text. -/
def behind (text : List Char) : Position := ⟨text.count '\n', (lastLine text).length⟩

/-- (p.Before q) holds if a position is on an earlier line, or on the same line and further to the
left.
-/
def Before (p q : Position) : Prop := p.line < q.line ∨ p.line = q.line ∧ p.column < q.column

theorem behind_append_of_not_mem {more : List Char} (line : '\n' ∉ more) (text : List Char)
    : behind (text ++ more) = ⟨(behind text).line, (behind text).column + more.length⟩ := by
  simp [behind, lastLine_append_of_not_mem line, List.count_eq_zero.mpr line]

theorem behind_concat (text : List Char) (c : Char)
    : behind (text ++ [c])
      = if c = '\n' then ⟨(behind text).line + 1, 0⟩
        else ⟨(behind text).line, (behind text).column + 1⟩ := by
  split
  · next feed => simp [behind, feed, lastLine]
  · next other => exact behind_append_of_not_mem (by simpa using Ne.symm other) text

/-- More text leads to a later position. -/
theorem behind_before_append (text : List Char) {more : List Char} (nonempty : more ≠ [])
    : (behind text).Before (behind (text ++ more)) := by
  by_cases feed : '\n' ∈ more
  · have passed := List.count_pos_iff.mpr feed
    refine .inl ?_
    simp only [behind, List.count_append]
    omega
  · have longer := List.length_pos_iff.mpr nonempty
    rw [behind_append_of_not_mem feed]
    exact .inr ⟨rfl, by simp only; omega⟩

/-- (p.Shows text before letters after) holds if the line of a position consists of some letters at
its column and of what is before and after them. Lines are cut at line feeds.
-/
structure Shows (p : Position) (text before letters after : List Char) : Prop where
  inside : p.line < (text.splitOn '\n').length
  line : (text.splitOn '\n')[p.line]? = some (before ++ letters ++ after)
  column : before.length = p.column

/-- At the position of a place stand the letters that stand at the place. -/
theorem shows_behind (front : List Char) {letters : List Char} (line : '\n' ∉ letters)
    (rest : List Char)
    : (behind front).Shows (front ++ (letters ++ rest)) (lastLine front) letters
        (rest.takeWhile (· ≠ '\n')) := by
  have found := getElem?_splitOn_lineFeed front (letters ++ rest)
  rw [List.takeWhile_append_of_pos (ne_lineFeed_of_not_mem line)] at found
  exact ⟨(List.getElem?_eq_some_iff.mp found).1, by rw [List.append_assoc]; exact found, rfl⟩

end Position

-----------------------------------------------------------------------------------------
-- Walks
-----------------------------------------------------------------------------------------

namespace Walk

/-- (walk.Reached text front) holds if a walk through a text has passed a front of it. -/
structure Reached (walk : Walk) (text front : List Char) : Prop where
  whole : text = front ++ walk.ahead
  offset : walk.offset = front.length
  position : walk.position = Position.behind front

theorem reached_start (text : List Char)
    : Reached { ahead := text } text [] :=
  ⟨rfl, rfl, rfl⟩

theorem Reached.pass {walk : Walk} {text front ahead : List Char} {c : Char}
    (reached : walk.Reached text front) (next : walk.ahead = c :: ahead)
    : (walk.pass c ahead).Reached text (front ++ [c]) := by
  refine ⟨by simpa [Walk.pass, next] using reached.whole, by simp [Walk.pass, reached.offset], ?_⟩
  rw [Position.behind_concat, Walk.pass, reached.position]

/-- A walk that goes on passes as many characters more, by induction on their number. -/
theorem Reached.advance {walk : Walk} {text front : List Char} (reached : walk.Reached text front)
    (count : Nat)
    : (walk.advance count).Reached text (front ++ walk.ahead.take count) := by
  induction count generalizing walk front with
  | zero => simpa [Walk.advance] using reached
  | succ count ih =>
      rw [Walk.advance]
      cases next : walk.ahead with
      | nil => simpa using reached
      | cons c ahead => simpa [Walk.pass] using ih (reached.pass next)

/-- A walk reaches any place that is not behind it. -/
theorem Reached.advance_to {walk : Walk} {text front more rest : List Char}
    (reached : walk.Reached text front) (ahead : text = front ++ more ++ rest)
    : (walk.advance ((front ++ more).length - walk.offset)).Reached text (front ++ more) := by
  have next : walk.ahead = more ++ rest := by
    have same := reached.whole.symm.trans ahead
    rwa [List.append_assoc, List.append_cancel_left_eq] at same
  have count : (front ++ more).length - walk.offset = more.length := by
    simp [reached.offset]
  have arrived := reached.advance more.length
  rwa [next, List.take_left, ← count] at arrived

end Walk

namespace Text

/-- The position of an offset, as a walk from the start of the text finds it. -/
def positionAt (text : List Char) (offset : Nat) : Position :=
  (Walk.advance { ahead := text } offset).position

theorem positionAt_eq_behind (text : List Char) (offset : Nat)
    : positionAt text offset = Position.behind (text.take offset) :=
  ((Walk.reached_start text).advance offset).position

end Text

end StackText
