import Mathlib
import StackText.Proofs.Reader.FencedText
import StackText.Reader.Basic

/-! The grammar of fenced strings, told from the runs of the quote in a text. A string closes with
the first run behind its opening one that is as long and stands before a boundary. Reading one
character after the other finds that run, and halves the runs inside single quotes on its way.
-/

namespace StackText

namespace Fenced

variable {quote : Char} {fence : Nat}

-----------------------------------------------------------------------------------------
-- Runs of a character
-----------------------------------------------------------------------------------------

/-- The length of the run of a character that starts at a place of a text. -/
def runLength (source : List Char) (quote : Char) (place : Nat) : Nat :=
  ((source.drop place).takeWhile (· = quote)).length

/-- The runs of a character in a text, each as long as it can be. Every other character is a piece
of its own.
-/
def runs (quote : Char) (text : List Char) : List (List Char) :=
  text.splitBy fun a b => a = quote && b = quote

/-- A text in which each run of a character has half its length, rounded up. Half a piece of one
character is the whole piece, so that all other characters stay.
-/
def halved (quote : Char) (text : List Char) : List Char :=
  (runs quote text).flatMap fun run => run.take ((run.length + 1) / 2)

/-- What the text between two fences stands for. -/
def folded (quote : Char) (fence : Nat) (body : List Char) : List Char :=
  if fence = 1 then halved quote body else body

theorem takeWhile_run {rest : List Char} (other : ∀ c ∈ rest.head?, c ≠ quote) (count : Nat)
    : (List.replicate count quote ++ rest).takeWhile (· = quote) = List.replicate count quote := by
  rw [List.takeWhile_append_of_pos (by simp)]
  cases rest with
  | nil => simp
  | cons c rest => simp [other c rfl]

/-- A text starts with one run of a character only. -/
theorem run_unique {m n : Nat} {left right : List Char} (leftOther : ∀ c ∈ left.head?, c ≠ quote)
    (rightOther : ∀ c ∈ right.head?, c ≠ quote)
    (same : List.replicate m quote ++ left = List.replicate n quote ++ right)
    : m = n ∧ left = right := by
  have runs := congrArg (List.takeWhile (· = quote)) same
  rw [takeWhile_run leftOther, takeWhile_run rightOther] at runs
  have count : m = n := by simpa using congrArg List.length runs
  subst count
  exact ⟨rfl, List.append_cancel_left same⟩

theorem halved_cons {c : Char} (other : c ≠ quote) (text : List Char)
    : halved quote (c :: text) = c :: halved quote text := by
  have apart : runs quote (c :: text) = [c] :: runs quote text :=
    List.splitBy_append (l := [c]) (by simp [other])
  simp [halved, apart]

/-- A run at the start of a text is halved on its own. -/
theorem halved_run {c : Char} (other : c ≠ quote) (count : Nat) (text : List Char)
    : halved quote (List.replicate count quote ++ c :: text)
      = List.replicate ((count + 1) / 2) quote ++ c :: halved quote text := by
  rw [← halved_cons other]
  cases count with
  | zero => rfl
  | succ count =>
      have chain : (List.replicate (count + 1) quote).IsChain
          fun a b => (a = quote && b = quote) = true := by
        simp [List.isChain_replicate_of_rel]
      have apart : runs quote (List.replicate (count + 1) quote ++ c :: text)
          = List.replicate (count + 1) quote :: runs quote (c :: text) := by
        rw [runs, List.splitBy_append_cons _ (by simp [other]),
          List.splitBy_of_isChain (by simp) chain]
        rfl
      rw [halved, apart, List.flatMap_cons, List.take_replicate, List.length_replicate]
      congr 2
      omega

/-- A run of quotes inside a string stands for as many as the reader folds it to. -/
theorem folded_run {c : Char} (other : c ≠ quote) (fence count : Nat) (text : List Char)
    : folded quote fence (List.replicate count quote ++ c :: text)
      = List.replicate (foldRun fence count) quote ++ c :: folded quote fence text := by
  by_cases single : fence = 1
  · simp only [folded, foldRun, if_pos single]
    exact halved_run other count text
  · simp only [folded, foldRun, if_neg single]

theorem folded_cons {c : Char} (other : c ≠ quote) (fence : Nat) (text : List Char)
    : folded quote fence (c :: text) = c :: folded quote fence text := by
  by_cases single : fence = 1
  · simp only [folded, if_pos single]
    exact halved_cons other text
  · simp only [folded, if_neg single]

theorem folded_nil (quote : Char) (fence : Nat)
    : folded quote fence [] = [] := by
  rw [folded]
  split <;> rfl

-----------------------------------------------------------------------------------------
-- The parts of a text
-----------------------------------------------------------------------------------------

/-- (Splits quote fence text body rest) holds if a text is the body of a string, a run of quotes
that may close it, and a rest.
-/
structure Splits (quote : Char) (fence : Nat) (text body rest : List Char) : Prop where
  whole : text = body ++ (List.replicate fence quote ++ rest)
  before : body.getLast? ≠ some quote
  ends : EndsFence quote rest

/-- (SplitsFirst quote fence text body rest) holds if no shorter body may be closed. -/
structure SplitsFirst (quote : Char) (fence : Nat) (text body rest : List Char) : Prop
    extends Splits quote fence text body rest where
  least : ∀ {other more}, Splits quote fence text other more → body.length ≤ other.length

namespace Splits

variable {c : Char} {count : Nat} {source body rest : List Char}

/-- Without a body the text starts with a closing run. -/
theorem ends_of_nil (other : ∀ c ∈ source.head?, c ≠ quote)
    (splits : Splits quote fence (List.replicate count quote ++ source) [] rest)
    : count = fence ∧ EndsFence quote source := by
  obtain ⟨same, rfl⟩ := run_unique other splits.ends.other splits.whole
  exact ⟨same, splits.ends⟩

/-- There is no body in a text that is one run. -/
theorem body_eq_nil (splits : Splits quote fence (List.replicate count quote) body rest)
    : body = [] := by
  obtain ⟨whole, before, _⟩ := splits
  rcases List.eq_nil_or_concat body with empty | ⟨front, last, rfl⟩
  · exact empty
  · have member : last ∈ List.replicate count quote := by simp [whole]
    simp [List.eq_of_mem_replicate member] at before

/-- A body does not end inside a run, by induction on the run. -/
theorem behind (nonempty : body ≠ [])
    (splits : Splits quote fence (List.replicate count quote ++ c :: source) body rest)
    : ∃ later, body = List.replicate count quote ++ c :: later
        ∧ Splits quote fence source later rest := by
  obtain ⟨whole, before, ends⟩ := splits
  obtain ⟨d, later, rfl⟩ := List.exists_cons_of_ne_nil nonempty
  induction count generalizing d later with
  | zero =>
      obtain ⟨rfl, same⟩ := List.cons.inj whole
      refine ⟨later, rfl, same, ?_, ends⟩
      cases later with
      | nil => simp
      | cons e later => simpa using before
  | succ count ih =>
      rw [List.replicate_succ, List.cons_append, List.cons_append] at whole
      obtain ⟨rfl, same⟩ := List.cons.inj whole
      cases later with
      | nil => simp at before
      | cons e later =>
          obtain ⟨last, body, splits⟩ := ih e later (by simp) same (by simpa using before)
          exact ⟨last, by rw [body]; rfl, splits⟩

/-- A text that does not start with a quote has a body that does not. -/
theorem exists_cons {text : List Char} (splits : Splits quote fence text body rest)
    (fenced : 0 < fence) (other : ∀ c ∈ text.head?, c ≠ quote)
    : ∃ c later, body = c :: later ∧ c ≠ quote := by
  obtain ⟨rfl, _, _⟩ := splits
  cases body with
  | nil =>
      obtain ⟨count, rfl⟩ := Nat.exists_eq_add_one.mpr fenced
      exact absurd rfl (other quote rfl)
  | cons c later => exact ⟨c, later, rfl, other c rfl⟩

/-- A run and another character go into the body. -/
theorem extend (other : c ≠ quote) (count : Nat) (splits : Splits quote fence source body rest)
    : Splits quote fence (List.replicate count quote ++ c :: source)
        (List.replicate count quote ++ c :: body) rest := by
  obtain ⟨rfl, before, ends⟩ := splits
  refine ⟨by simp, ?_, ends⟩
  rw [List.getLast?_append_cons]
  cases body with
  | nil => simpa using other
  | cons d body => simpa using before

end Splits

/-- A text that starts with a closing run has no body. -/
theorem splitsFirst_of_run {source : List Char} (ends : EndsFence quote source)
    : SplitsFirst quote fence (List.replicate fence quote ++ source) [] source :=
  ⟨⟨rfl, by simp, ends⟩, by simp⟩

/-- Behind a run that does not close a string the first closing run is that of the text there. -/
theorem SplitsFirst.extend {c : Char} {count : Nat} {source body rest : List Char}
    (other : c ≠ quote) (open' : ¬(count = fence ∧ EndsFence quote (c :: source)))
    (splits : SplitsFirst quote fence source body rest)
    : SplitsFirst quote fence (List.replicate count quote ++ c :: source)
        (List.replicate count quote ++ c :: body) rest := by
  refine ⟨splits.toSplits.extend other count, ?_⟩
  intro earlier more splits'
  by_cases nonempty : earlier = []
  · subst nonempty
    exact absurd (splits'.ends_of_nil (by simpa using other)) open'
  · obtain ⟨later, rfl, behind⟩ := splits'.behind nonempty
    have shorter := splits.least behind
    simpa using shorter

-----------------------------------------------------------------------------------------
-- What the reader finds
-----------------------------------------------------------------------------------------

theorem endsFence_cons {c : Char} {source : List Char} (other : c ≠ quote)
    : EndsFence quote (c :: source) ↔ closesBefore (c :: source) = true :=
  ⟨EndsFence.closes, fun closes => ⟨closes, by simpa using other⟩⟩

/-- The reader stops at the first closing run and folds what is before it, by induction along the
text. The quotes just passed are part of the text, since they may belong to that run.
-/
theorem splitsFirst_of_readBody {run size : Nat} {text source : List Char} {f : Fenced}
    (read : readBody quote fence run text size source = some f)
    : ∃ body,
        SplitsFirst quote fence (List.replicate run quote ++ source) body f.rest
        ∧ f.text = text.reverse ++ folded quote fence body
        ∧ f.size + run = size + (body.length + fence) := by
  fun_induction readBody quote fence run text size source with
  | case1 text size =>
      cases read
      exact ⟨[], splitsFirst_of_run ⟨rfl, by simp⟩, by simp [folded_nil], by simp⟩
  | case2 => cases read
  | case3 run text size source ih =>
      obtain ⟨body, splits, content, count⟩ := ih read
      rw [List.replicate_succ', List.append_assoc] at splits
      exact ⟨body, splits, content, by omega⟩
  | case4 run text size c source other closes =>
      cases read
      simp only [Bool.and_eq_true, decide_eq_true_eq] at closes
      obtain ⟨rfl, closes⟩ := closes
      have ends := (endsFence_cons other).mpr closes
      exact ⟨[], splitsFirst_of_run ends, by simp [folded_nil], by simp⟩
  | case5 run text size c source other open' quotes ih =>
      obtain ⟨body, splits, content, count⟩ := ih read
      refine ⟨List.replicate run quote ++ c :: body, splits.extend other ?_, ?_, ?_⟩
      · simpa [endsFence_cons other] using open'
      · rw [content, folded_run other]
        simp [quotes]
      · simp only [List.length_append, List.length_replicate, List.length_cons]
        omega

/-- Where the reader comes to no end there is no closing run, by induction along the text. -/
theorem not_splits_of_readBody {run size : Nat} {text source : List Char}
    (unread : readBody quote fence run text size source = none) (body rest : List Char)
    : ¬Splits quote fence (List.replicate run quote ++ source) body rest := by
  intro splits
  fun_induction readBody quote fence run text size source generalizing body with
  | case1 => cases unread
  | case2 run text size differs =>
      have empty := (List.append_nil (List.replicate run quote) ▸ splits).body_eq_nil
      subst empty
      exact differs (splits.ends_of_nil (by simp)).1
  | case3 run text size source ih =>
      refine ih unread body ?_
      rwa [List.replicate_succ', List.append_assoc]
  | case4 => cases unread
  | case5 run text size c source other open' quotes ih =>
      by_cases nonempty : body = []
      · subst nonempty
        have closes := splits.ends_of_nil (by simpa using other)
        simp [endsFence_cons other] at closes
        simp [closes] at open'
      · obtain ⟨later, rfl, behind⟩ := splits.behind nonempty
        exact ih unread later behind

/-- The last character of the text is that before the closing run, by induction along the body. -/
theorem getLast?_of_readBody {run size : Nat} {text source : List Char} {f : Fenced}
    (read : readBody quote fence run text size source = some f) (last : text.head? ≠ some quote)
    : f.text.getLast? ≠ some quote := by
  fun_induction readBody quote fence run text size source with
  | case1 => cases read; simpa using last
  | case2 => cases read
  | case3 _ _ _ _ ih => exact ih read last
  | case4 => cases read; simpa using last
  | case5 _ _ _ c _ other _ _ ih => exact ih read (by simpa using other)

-----------------------------------------------------------------------------------------
-- Places in a text
-----------------------------------------------------------------------------------------

/-- (ClosesAt source quote fence start) holds if the run of quotes that starts at a place may close
a string. It is as long as the fence, no quote is right before it, and behind it is the end of the
text, a character that ends a word, or a sigil.
-/
structure ClosesAt (source : List Char) (quote : Char) (fence start : Nat) : Prop where
  length : runLength source quote start = fence
  before : ∀ place, place + 1 = start → source[place]? ≠ some quote
  behind : ∀ c ∈ source[start + fence]?, isSpecial c = true ∨ c = sigil

variable {source : List Char} {pos opened start : Nat}

/-- The text from a place on is the run there and what is behind it. -/
theorem drop_eq_run_append (source : List Char) (quote : Char) (place : Nat)
    : source.drop place
      = List.replicate (runLength source quote place) quote
        ++ source.drop (place + runLength source quote place) := by
  have run : (source.drop place).takeWhile (· = quote)
      = List.replicate (runLength source quote place) quote := by
    refine List.eq_replicate_iff.mpr ⟨rfl, ?_⟩
    intro c member
    simpa using List.mem_takeWhile_imp member
  have parts := List.prefix_iff_eq_append.mp
    (List.takeWhile_prefix (l := source.drop place) (· = quote))
  rw [run, List.drop_drop, List.length_replicate] at parts
  exact parts.symm

theorem runLength_of_drop {place count : Nat} {rest : List Char}
    (other : ∀ c ∈ rest.head?, c ≠ quote)
    (parts : source.drop place = List.replicate count quote ++ rest)
    : runLength source quote place = count := by
  rw [runLength, parts, takeWhile_run other, List.length_replicate]

/-- A run goes as far as it can. -/
theorem head?_behind_run (source : List Char) (quote : Char) (place : Nat)
    : ∀ c ∈ (source.drop (place + runLength source quote place)).head?, c ≠ quote := by
  rintro c next rfl
  have longer := congrArg List.length (congrArg (List.takeWhile (· = c))
    (drop_eq_run_append source c place))
  obtain ⟨rest, parts⟩ := List.head?_eq_some_iff.mp next
  rw [parts, List.takeWhile_append_of_pos (by simp)] at longer
  simp [runLength] at longer

/-- A run that may close the string parts the text behind the opening run. -/
theorem ClosesAt.splits (closes : ClosesAt source quote fence start) (fenced : 0 < fence)
    (behind : opened ≤ start)
    : Splits quote fence (source.drop opened) ((source.take start).drop opened)
        (source.drop (start + fence)) := by
  obtain ⟨rfl, before, boundary⟩ := closes
  refine ⟨?_, ?_, ?_, head?_behind_run source quote start⟩
  · rw [← drop_eq_run_append, List.drop_take]
    have parts := List.take_append_drop (start - opened) (source.drop opened)
    rw [List.drop_drop, Nat.add_sub_cancel' behind] at parts
    exact parts.symm
  · have inside : start < source.length := by
      by_contra beyond
      rw [runLength, List.drop_eq_nil_of_le (by omega)] at fenced
      simp at fenced
    intro last
    rw [List.getLast?_eq_getElem?, List.getElem?_drop, List.getElem?_take] at last
    split at last
    · refine before _ ?_ last
      simp only [List.length_drop, List.length_take] at *
      omega
    · cases last
  · cases parts : source.drop (start + runLength source quote start) with
    | nil => rfl
    | cons c rest =>
        have next : source[start + runLength source quote start]? = some c := by
          rw [← List.head?_drop, parts]
          rfl
        simpa [closesBefore] using boundary c next

/-- Each closing run of the text behind the opening run is one of the whole text. -/
theorem Splits.closesAt {body rest : List Char}
    (splits : Splits quote fence (source.drop opened) body rest) (fenced : 0 < fence)
    (other : ∀ c ∈ (source.drop opened).head?, c ≠ quote)
    : ClosesAt source quote fence (opened + body.length) := by
  obtain ⟨_, _, nonempty, _⟩ := splits.exists_cons fenced other
  obtain ⟨whole, before, ends⟩ := splits
  have closing : source.drop (opened + body.length) = List.replicate fence quote ++ rest := by
    rw [← List.drop_drop, whole, List.drop_left]
  refine ⟨runLength_of_drop ends.other closing, ?_, ?_⟩
  · intro place adjacent
    rcases List.eq_nil_or_concat body with rfl | ⟨front, last, rfl⟩
    · cases nonempty
    · have same : place = opened + front.length := by
        simp only [List.concat_eq_append, List.length_append, List.length_singleton] at adjacent
        omega
      rw [same, ← List.getElem?_drop, whole]
      simpa using before
  · intro c next
    rw [← List.head?_drop, ← List.drop_drop, closing, List.drop_left' (by simp)] at next
    obtain ⟨more, rfl⟩ := List.head?_eq_some_iff.mp next
    simpa [closesBefore] using ends.closes

theorem drop_eq_cons (here : source[pos]? = some quote)
    : source.drop pos = quote :: source.drop (pos + 1) := by
  obtain ⟨inside, same⟩ := List.getElem?_eq_some_iff.mp here
  rw [List.drop_eq_getElem_cons inside, same]

/-- A string opens with the run at its place. -/
theorem openingRun_drop (here : source[pos]? = some quote)
    : openingRun (source.drop pos) = runLength source quote pos := by
  rw [runLength, drop_eq_cons here]
  simp [openingRun]

theorem runLength_pos (here : source[pos]? = some quote)
    : 0 < runLength source quote pos := by
  rw [← openingRun_drop here, drop_eq_cons here]
  exact Nat.succ_pos _

theorem read?_drop (here : source[pos]? = some quote) (opening : runLength source quote pos = fence)
    : read? (source.drop pos) = readBody quote fence 0 [] fence (source.drop (pos + fence)) := by
  have fenced := runLength_pos here
  have count := openingRun_drop here
  rw [opening] at fenced count
  rw [drop_eq_cons here] at count ⊢
  rw [read?, count, List.drop_drop]
  congr 2
  omega

-----------------------------------------------------------------------------------------
-- The grammar
-----------------------------------------------------------------------------------------

/-- (ClosesFirstAt source quote fence opened start) holds if the run at a place is the first behind
the opening one that may close the string.
-/
structure ClosesFirstAt (source : List Char) (quote : Char) (fence opened start : Nat) : Prop where
  behind : opened ≤ start
  closes : ClosesAt source quote fence start
  least : ∀ earlier, opened ≤ earlier → ClosesAt source quote fence earlier → start ≤ earlier

theorem ClosesFirstAt.unique {other : Nat} (first : ClosesFirstAt source quote fence opened start)
    (also : ClosesFirstAt source quote fence opened other)
    : start = other :=
  Nat.le_antisymm (first.least other also.behind also.closes)
    (also.least start first.behind first.closes)

/-- A closing run is inside the text. -/
theorem ClosesAt.stop_le (closes : ClosesAt source quote fence start) (fenced : 0 < fence)
    : start + fence ≤ source.length := by
  have inside : runLength source quote start ≤ (source.drop start).length :=
    (List.takeWhile_sublist (l := source.drop start) (· = quote)).length_le
  rw [closes.length, List.length_drop] at inside
  omega

theorem SplitsFirst.closesFirstAt {body rest : List Char}
    (splits : SplitsFirst quote fence (source.drop opened) body rest) (fenced : 0 < fence)
    (other : ∀ c ∈ (source.drop opened).head?, c ≠ quote)
    : ClosesFirstAt source quote fence opened (opened + body.length) := by
  refine ⟨by omega, splits.toSplits.closesAt fenced other, ?_⟩
  intro earlier behind closes
  have shorter := splits.least (closes.splits fenced behind)
  simp only [List.length_drop, List.length_take] at shorter
  omega

/-- (f.Found source quote fence pos start) holds if a string is what stands between an opening run
at one place and a closing run at another.
-/
structure Found (f : Fenced) (source : List Char) (quote : Char) (fence pos start : Nat)
    : Prop where
  text : f.text = folded quote fence ((source.take start).drop (pos + fence))
  stop : pos + f.size = start + fence
  rest : f.rest = source.drop (start + fence)

theorem Found.unique {f g : Fenced} (found : f.Found source quote fence pos start)
    (alike : g.Found source quote fence pos start)
    : f = g := by
  obtain ⟨text, stop, rest⟩ := found
  obtain ⟨text', stop', rest'⟩ := alike
  obtain ⟨_, size, _⟩ := f
  obtain ⟨_, size', _⟩ := g
  have same : size = size' := Nat.add_left_cancel (stop.trans stop'.symm)
  simp only [Fenced.mk.injEq]
  exact ⟨text.trans text'.symm, same, rest.trans rest'.symm⟩

/-- A string that is read closes with the first run that may close it. -/
theorem found_of_read? (here : source[pos]? = some quote)
    (opening : runLength source quote pos = fence) {f : Fenced}
    (read : read? (source.drop pos) = some f)
    : ∃ start,
        ClosesFirstAt source quote fence (pos + fence) start
        ∧ f.Found source quote fence pos start := by
  rw [read?_drop here opening] at read
  obtain ⟨body, splits, content, count⟩ := splitsFirst_of_readBody read
  have other : ∀ c ∈ (source.drop (pos + fence)).head?, c ≠ quote := by
    rw [← opening]
    exact head?_behind_run source quote pos
  have first := splits.closesFirstAt (opening ▸ runLength_pos here) other
  have whole : source.drop (pos + fence) = body ++ (List.replicate fence quote ++ f.rest) :=
    splits.whole
  refine ⟨_, first, ?_, by omega, ?_⟩
  · rw [content, List.drop_take, whole, Nat.add_sub_cancel_left, List.take_left]
    rfl
  · rw [Nat.add_assoc, ← List.drop_drop, whole, ← List.drop_drop, List.drop_left,
      List.drop_left' (by simp)]

/-- Without a run that may close it a string is not read, and with one it is. -/
theorem read?_eq_none_iff (here : source[pos]? = some quote)
    (opening : runLength source quote pos = fence)
    : read? (source.drop pos) = none
      ↔ ∀ start, pos + fence ≤ start → ¬ClosesAt source quote fence start := by
  constructor
  · intro unread start behind closes
    rw [read?_drop here opening] at unread
    have splits := closes.splits (opening ▸ runLength_pos here) behind
    exact not_splits_of_readBody unread _ _ splits
  · intro never
    cases read : read? (source.drop pos) with
    | none => rfl
    | some f =>
        obtain ⟨start, first, _⟩ := found_of_read? here opening read
        exact absurd first.closes (never start first.behind)

/-- The text of a string starts and ends with characters that are no quotes: those next to the two
fences.
-/
theorem text_of_read? (here : source[pos]? = some quote) {f : Fenced}
    (read : read? (source.drop pos) = some f)
    : f.text ≠ [] ∧ f.text.head? ≠ some quote ∧ f.text.getLast? ≠ some quote := by
  rw [read?_drop here rfl] at read
  obtain ⟨body, splits, content, _⟩ := splitsFirst_of_readBody read
  obtain ⟨c, later, rfl, other⟩ :=
    splits.exists_cons (runLength_pos here) (head?_behind_run source quote pos)
  have first : f.text = c :: folded quote (runLength source quote pos) later :=
    content.trans (folded_cons other _ later)
  refine ⟨by simp [first], by simpa [first] using other, ?_⟩
  exact getLast?_of_readBody read (by simp)

/-- A string takes up some of the text, and what follows it is all the rest. -/
theorem size_of_read? (here : source[pos]? = some quote) {f : Fenced}
    (read : read? (source.drop pos) = some f)
    : 0 < f.size ∧ pos + f.size + f.rest.length = source.length := by
  obtain ⟨start, first, found⟩ := found_of_read? here rfl read
  have fenced := runLength_pos here
  have behind := first.behind
  have inside := first.closes.stop_le fenced
  have stop := found.stop
  rw [found.rest, List.length_drop]
  omega

/-- The reader of strings implements the grammar of fences. At any place of any text, whatever
character is there, let the fence be the length of its run from there on. A string is read if and
only if there is, behind that run, a run of the same character that is as long, as long as it can
be, and followed by the end of the text, a character that ends a word, or a sigil; it stops behind
the first such run, and its text is what stands between the two, where in a fence of one character
each run is halved, rounded up. If there is no such run the string is reported as unfinished, with
its fence. The text is never empty, and the string stops behind its start and inside the text.
Witness: the reader passes the text in the same pieces, a run and one other character at a time.
-/
theorem read?_implements_grammar (here : source[pos]? = some quote)
    (opening : runLength source quote pos = fence)
    : (∀ f,
        read? (source.drop pos) = some f
        ↔ ∃ start,
            ClosesFirstAt source quote fence (pos + fence) start
            ∧ f.Found source quote fence pos start)
      ∧ (read? (source.drop pos) = none
        ↔ ∀ start, pos + fence ≤ start → ¬ClosesAt source quote fence start)
      ∧ Reader.unfinishedString (source.drop pos) = .string quote fence
      ∧ ∀ f,
          read? (source.drop pos) = some f
          → f.text ≠ [] ∧ pos < pos + f.size ∧ pos + f.size ≤ source.length := by
  refine ⟨?_, read?_eq_none_iff here opening, ?_, ?_⟩
  · intro f
    constructor
    · exact found_of_read? here opening
    · rintro ⟨start, first, found⟩
      cases read : read? (source.drop pos) with
      | none =>
          have never := (read?_eq_none_iff here opening).mp read
          exact absurd first.closes (never start first.behind)
      | some g =>
          obtain ⟨other, also, alike⟩ := found_of_read? here opening read
          obtain rfl := first.unique also
          rw [found.unique alike]
  · rw [Reader.unfinishedString, openingRun_drop here, opening, drop_eq_cons here]
    rfl
  · intro f read
    obtain ⟨nonempty, _, _⟩ := text_of_read? here read
    obtain ⟨positive, whole⟩ := size_of_read? here read
    exact ⟨nonempty, by omega, by omega⟩

/-- A string with a doubled quote and a lone one inside, which does not stand before a boundary; and
a fence of two that only one quote follows.
-/
theorem grammar_of_lone_quote
    : (∃ start,
        ClosesFirstAt "f 'it''s'x' g".toList '\x27' 1 3 start
        ∧ Found ⟨"it's'x".toList, 9, " g".toList⟩ "f 'it''s'x' g".toList '\x27' 1 2 start)
      ∧ ∀ start, 2 ≤ start → ¬ClosesAt "''a' b".toList '\x27' 2 start := by
  have single : runLength "f 'it''s'x' g".toList '\x27' 2 = 1 := by decide
  have double : runLength "''a' b".toList '\x27' 0 = 2 := by decide
  obtain ⟨strings, _⟩ := read?_implements_grammar (by decide) single
  obtain ⟨_, unfinished, _⟩ := read?_implements_grammar (by decide) double
  exact ⟨(strings _).mp (by decide), unfinished.mp (by decide)⟩

end Fenced

end StackText
