import StackText.CommandLine.Sources
import StackText.Proofs.CommandLine.OptionLetters

/-! What the reader that looks for code finds in each argument: at most one source, by the word that
the letters of the argument make.
-/

namespace StackText.CommandLine

/-- The inline code among sources, in order. -/
def codesOf (sources : List Source) : List String :=
  sources.filterMap fun
    | .code text => some text
    | .file _ => none

/-- The script files among sources, in order. -/
def filesOf (sources : List Source) : List String :=
  sources.filterMap fun
    | .code _ => none
    | .file name => some name

variable {argument : String} {letters : List Char}

-----------------------------------------------------------------------------------------
-- One argument
-----------------------------------------------------------------------------------------

theorem sourcesFrom_bare (bare : letters? argument = none) (rest : List String)
    : sourcesFrom none (argument :: rest) = .file argument :: sourcesFrom none rest := by
  have other : ∀ c letters, argument.toList ≠ '-' :: c :: letters := by
    intro c letters same
    cases (letters?_eq_some_iff.mpr same).symm.trans bare
  rw [sourcesFrom]
  split
  · next same => exact absurd same (other _ _)
  · next same => exact absurd same (other _ _)
  · next same => exact absurd same (other _ _)
  · rfl

theorem sourcesFrom_separator (rest : List String)
    : sourcesFrom none ("--" :: rest) = rest.map .file := rfl

theorem sourcesFrom_long {letters : List Char} (dashed : letters? argument = some ('-' :: letters))
    (other : argument ≠ "--") (rest : List String)
    : sourcesFrom none (argument :: rest) = sourcesFrom none rest := by
  have text := letters?_eq_some_iff.mp dashed
  rw [sourcesFrom, text]
  split
  · next same =>
      cases same
      exact absurd (String.ext text) other
  · rfl
  · next notLong same =>
      cases same
      exact absurd rfl notLong
  · next notDashed => exact absurd rfl (notDashed _ _)

/-- What letters say to the reader that looks for code: the first letter for it counts, whatever
stands before.
-/
theorem sourcesFrom_dashed {c : Char} {letters : List Char}
    (dashed : letters? argument = some (c :: letters)) (single : c ≠ '-') (rest : List String)
    : sourcesFrom none (argument :: rest)
      = match argumentLetter? (c :: letters) with
        | none => sourcesFrom none rest
        | some (isCode, []) => sourcesFrom (some isCode) rest
        | some (true, value) => .code (String.ofList value) :: sourcesFrom none rest
        | some (false, _) => sourcesFrom none rest := by
  rw [sourcesFrom, letters?_eq_some_iff.mp dashed]
  split
  · next same => cases same; exact absurd rfl single
  · next same => cases same; exact absurd rfl single
  · next same => cases same; rfl
  · next other => exact absurd rfl (other _ _)

/-- The first letter that takes an argument stands behind the switches. -/
theorem argumentLetter?_of_word (letters : List Char)
    : match word letters with
      | .switches => argumentLetter? letters = none
      | .awaits isCode => argumentLetter? letters = some (isCode, [])
      | .given isCode text => argumentLetter? letters = some (isCode, text) ∧ text ≠ []
      | .other _ => True := by
  fun_induction word letters with
  | case1 => rfl
  | case2 letters ih => exact ih
  | case3 => rfl
  | case4 => rfl
  | case5 text more => exact ⟨rfl, more⟩
  | case6 text more => exact ⟨rfl, more⟩
  | case7 => trivial

/-- What letters that make a word say to the reader that looks for code. -/
theorem sourcesFrom_of_word (dashed : letters? argument = some letters) (rest : List String)
    : match word letters with
      | .switches => sourcesFrom none (argument :: rest) = sourcesFrom none rest
      | .awaits isCode => sourcesFrom none (argument :: rest) = sourcesFrom (some isCode) rest
      | .given isCode text =>
          sourcesFrom none (argument :: rest)
            = (if isCode then [.code (String.ofList text)] else []) ++ sourcesFrom none rest
      | .other _ => True := by
  obtain ⟨c, more, rfl⟩ := exists_cons_of_letters? dashed
  by_cases single : c = '-'
  · subst single
    rw [word_of_unknown rfl]
    trivial
  have letter := argumentLetter?_of_word (c :: more)
  rw [sourcesFrom_dashed dashed single]
  cases same : word (c :: more) with
  | switches =>
      rw [same] at letter
      simp only [letter]
  | awaits isCode =>
      rw [same] at letter
      simp only [letter]
  | given isCode text =>
      rw [same] at letter
      obtain ⟨found, nonempty⟩ := letter
      obtain ⟨first, text, rfl⟩ := List.exists_cons_of_ne_nil nonempty
      cases isCode <;> simp [found]
  | other => trivial

/-- An argument is at most one file, and then it has no letters. -/
theorem exists_filesOf_cons {awaiting : Option Bool} (own : awaiting ≠ none ∨ argument ≠ "--")
    (rest : List String)
    : ∃ front later,
        filesOf (sourcesFrom awaiting (argument :: rest))
          = front ++ filesOf (sourcesFrom later rest)
        ∧ (front = [] ∨ front = [argument] ∧ letters? argument = none) := by
  match awaiting with
  | some true => exact ⟨[], none, rfl, .inl rfl⟩
  | some false => exact ⟨[], none, rfl, .inl rfl⟩
  | none =>
      cases dashed : letters? argument with
      | none => exact ⟨[argument], none, by rw [sourcesFrom_bare dashed]; rfl, .inr ⟨rfl, rfl⟩⟩
      | some letters =>
          obtain ⟨c, more, rfl⟩ := exists_cons_of_letters? dashed
          by_cases single : c = '-'
          · subst single
            rw [sourcesFrom_long dashed (own.resolve_left (by simp))]
            exact ⟨[], none, rfl, .inl rfl⟩
          · rw [sourcesFrom_dashed dashed single]
            split
            · exact ⟨[], none, rfl, .inl rfl⟩
            · exact ⟨[], some _, rfl, .inl rfl⟩
            · exact ⟨[], none, rfl, .inl rfl⟩
            · exact ⟨[], none, rfl, .inl rfl⟩

-----------------------------------------------------------------------------------------
-- All arguments
-----------------------------------------------------------------------------------------

theorem codesOf_map_file (names : List String)
    : codesOf (names.map .file) = [] := by
  induction names with
  | nil => rfl
  | cons name names ih => exact ih

theorem filesOf_map_file (names : List String)
    : filesOf (names.map .file) = names := by
  induction names with
  | nil => rfl
  | cons name names ih => exact congrArg (name :: ·) ih

theorem filesOf_nil (awaiting : Option Bool)
    : filesOf (sourcesFrom awaiting []) = [] := by
  match awaiting with
  | none | some false | some true => rfl

/-- The files are some of the arguments, in their order. -/
theorem filesOf_sublist (awaiting : Option Bool) (arguments : List String)
    : (filesOf (sourcesFrom awaiting arguments)).Sublist arguments := by
  induction arguments generalizing awaiting with
  | nil => simp [filesOf_nil]
  | cons argument rest ih =>
      by_cases own : awaiting ≠ none ∨ argument ≠ "--"
      · obtain ⟨front, later, same, alone⟩ := exists_filesOf_cons own rest
        rw [same]
        rcases alone with rfl | ⟨rfl, _⟩
        · exact (ih later).cons argument
        · exact (ih later).cons_cons argument
      · obtain ⟨rfl, rfl⟩ : awaiting = none ∧ argument = "--" := by simpa using own
        rw [sourcesFrom_separator, filesOf_map_file]
        exact List.sublist_cons_self _ _

/-- Each source is inline code or a file. -/
theorem codesOf_ne_nil_or_filesOf_ne_nil {found : List Source} (nonempty : found ≠ [])
    : codesOf found ≠ [] ∨ filesOf found ≠ [] := by
  cases found with
  | nil => exact absurd rfl nonempty
  | cons source found =>
      cases source with
      | code text => exact .inl (List.cons_ne_nil _ _)
      | file name => exact .inr (List.cons_ne_nil _ _)

end StackText.CommandLine
