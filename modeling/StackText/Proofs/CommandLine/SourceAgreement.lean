import Mathlib
import StackText.CommandLine.Program
import StackText.Proofs.CommandLine.FoundSources
import StackText.Proofs.CommandLine.Readings

/-! Which accepted arguments name the same code to both readers: to the one that chooses what the
program is to do, and to the one that finds the code to run.
-/

namespace StackText.CommandLine

/-- (Orderly hasFile awaiting arguments) holds of arguments that both readers read alike. An
argument that an option awaits may be anything. Any other before the separator has no letters, or
its letters make a word; and inline code that is attached to its letter starts with no equals sign.
Behind a separator that no file stands before, every argument would be plain before it as well.
-/
def Orderly (hasFile awaiting : Bool) : List String → Prop
  | [] => True
  | argument :: rest =>
      if awaiting then Orderly hasFile false rest
      else if argument = "--" then hasFile = true ∨ ∀ name ∈ rest, shape name = .ok .plain
      else
        match (letters? argument).map word with
        | none => Orderly true false rest
        | some .switches => Orderly hasFile false rest
        | some (.awaits _) => Orderly hasFile true rest
        | some (.given isCode text) =>
            (isCode = true → text.head? ≠ some '=') ∧ Orderly hasFile false rest
        | some (.other _) => False

/-- How many names have letters. -/
def dashedCount (names : List String) : Nat := names.countP fun name => (letters? name).isSome

/-- How many names would not be plain before a separator. -/
def oddCount (names : List String) : Nat := names.countP fun name => shape name ≠ .ok .plain

variable {argument : String} {arguments : List String} {letters : List Char}

-----------------------------------------------------------------------------------------
-- Counting script files
-----------------------------------------------------------------------------------------

/-- A plain argument is not the separator that is taken out of the script files. -/
theorem erase_cons_of_plain (plain : shape argument = .ok .plain) (names : List String)
    : (argument :: names).erase "--" = argument :: names.erase "--" :=
  List.erase_cons_tail (by simpa using ne_separator_of_shape plain)

/-- An argument adds no file that is dashed or odd. -/
theorem exists_counts_cons (awaiting : Option Bool) (own : awaiting ≠ none ∨ argument ≠ "--")
    (rest : List String)
    : ∃ later,
        dashedCount (filesOf (sourcesFrom awaiting (argument :: rest)))
          = dashedCount (filesOf (sourcesFrom later rest))
        ∧ oddCount (filesOf (sourcesFrom awaiting (argument :: rest)))
          = oddCount (filesOf (sourcesFrom later rest)) := by
  obtain ⟨front, later, same, alone⟩ := exists_filesOf_cons own rest
  refine ⟨later, ?_⟩
  rw [same]
  rcases alone with rfl | ⟨rfl, bare⟩
  · exact ⟨rfl, rfl⟩
  · simp [dashedCount, oddCount, bare, shape_of_bare bare]

theorem dashedCount_separator_le (awaiting : Option Bool) (back : List String)
    : dashedCount (filesOf (sourcesFrom awaiting ("--" :: back))) ≤ dashedCount back := by
  have sublist : (filesOf (sourcesFrom awaiting ("--" :: back))).Sublist back := by
    match awaiting with
    | none => rw [sourcesFrom_separator, filesOf_map_file]
    | some true | some false => exact filesOf_sublist none back
  exact sublist.countP_le

/-- The reading that takes script files takes all the dashed ones that the other reader finds. -/
theorem Reads.dashedCount_le {hasFile : Bool} {codes left : List String}
    (reads : Reads true hasFile arguments codes left) (awaiting : Option Bool)
    : dashedCount (filesOf (sourcesFrom awaiting arguments)) ≤ dashedCount (left.erase "--") := by
  induction reads generalizing awaiting with
  | done =>
      rw [filesOf_nil]
      exact Nat.zero_le _
  | separator =>
      simp only [Bool.true_or, if_true, List.erase_cons_head]
      exact dashedCount_separator_le awaiting _
  | @plain _ argument arguments _ left plain _ ih =>
      have other := ne_separator_of_shape plain
      obtain ⟨later, same, _⟩ := exists_counts_cons awaiting (.inr other) arguments
      rw [same, erase_cons_of_plain plain]
      exact (ih later).trans (List.sublist_cons_self _ _).countP_le
  | unknown first => cases first
  | @option _ argument arguments _ _ _ _ _ _ dashed means complete _ ih =>
      obtain rfl := complete rfl
      have other := means.ne_separator dashed
      obtain ⟨later, same, _⟩ := exists_counts_cons awaiting (.inr other) arguments
      rw [same]
      exact ih later
  | @awaiting _ argument value arguments _ _ _ _ dashed means plain _ ih =>
      have other := means.ne_separator dashed
      obtain ⟨later, same, _⟩ :=
        exists_counts_cons awaiting (.inr other) (value :: arguments)
      obtain ⟨last, same', _⟩ :=
        exists_counts_cons later (.inr (ne_separator_of_shape plain)) arguments
      rw [same, same']
      exact ih last

theorem oddCount_cons_plain (plain : shape argument = .ok .plain) (names : List String)
    : oddCount (argument :: names) = oddCount names := by
  simp [oddCount, plain]

theorem oddCount_cons_odd (odd : shape argument ≠ .ok .plain) (names : List String)
    : oddCount (argument :: names) = oddCount names + 1 := by
  simp [oddCount, odd]

/-- An option whose letters all make sense is odd. -/
theorem Means.oddCount_cons {next : Option String} {own : List String} {takesNext : Bool}
    (means : Means next letters own none takesNext) (dashed : letters? argument = some letters)
    (names : List String)
    : oddCount (argument :: names) = oddCount names + 1 :=
  oddCount_cons_odd (fun plain => means.not_isOperand dashed (isOperand_of_shape plain (.inl rfl)))
    names

/-- The reading that takes script files takes no more odd ones than there are odd arguments, and as
many only if all arguments are plain.
-/
theorem Reads.oddCount_le {hasFile : Bool} {codes left : List String}
    (reads : Reads true hasFile arguments codes left)
    : oddCount (left.erase "--") ≤ oddCount arguments
      ∧ (oddCount (left.erase "--") = oddCount arguments
          → codes = [] ∧ left = arguments ∧ ∀ name ∈ arguments, shape name = .ok .plain) := by
  induction reads with
  | done => simp
  | @separator _ back =>
      have odd : shape "--" ≠ .ok .plain := by simp [shape_separator]
      simp only [Bool.true_or, if_true, List.erase_cons_head, oddCount_cons_odd odd]
      exact ⟨Nat.le_succ _, fun same => absurd same (Nat.ne_of_lt (Nat.lt_succ_self _))⟩
  | @plain _ argument arguments _ left plain _ ih =>
      rw [erase_cons_of_plain plain, oddCount_cons_plain plain, oddCount_cons_plain plain]
      refine ⟨ih.1, fun same => ?_⟩
      obtain ⟨none, rfl, all⟩ := ih.2 same
      exact ⟨none, rfl, List.forall_mem_cons.mpr ⟨plain, all⟩⟩
  | unknown first => cases first
  | option dashed means complete _ ih =>
      obtain rfl := complete rfl
      rw [means.oddCount_cons dashed]
      refine ⟨Nat.le_succ_of_le ih.1, ?_⟩
      intro same
      exact absurd same (Nat.ne_of_lt (Nat.lt_succ_of_le ih.1))
  | awaiting dashed means plain _ ih =>
      rw [means.oddCount_cons dashed, oddCount_cons_plain plain]
      refine ⟨Nat.le_succ_of_le ih.1, ?_⟩
      intro same
      exact absurd same (Nat.ne_of_lt (Nat.lt_succ_of_le ih.1))

section SecondReading

variable {any : Bool} {left more scripts : List String}

theorem erase_separator (all : ∀ name ∈ arguments, shape name = .ok .plain)
    : arguments.erase "--" = arguments :=
  List.erase_of_not_mem fun member => ne_separator_of_shape (all _ member) rfl

theorem oddCount_operand (plain : shape argument = .ok .plain)
    : oddCount ((argument :: scripts).erase "--") = oddCount (scripts.erase "--") := by
  rw [erase_cons_of_plain plain, oddCount_cons_plain plain]

theorem dashedCount_operand_le (plain : shape argument = .ok .plain)
    : dashedCount (scripts.erase "--") ≤ dashedCount ((argument :: scripts).erase "--") := by
  rw [erase_cons_of_plain plain]
  exact (List.sublist_cons_self _ _).countP_le

/-- The arguments that the second reading takes as script files include all the dashed ones that the
other reader finds, if the odd ones are as many. Witness: dashed files are found only behind a
separator. If the first reading kept it, all that follows is taken; if not, as many odd files as
arguments mean that all of these are plain.
-/
theorem Reads.dashedCount_le_of_oddCount {hasFile : Bool} {codes : List String}
    (first : Reads false hasFile arguments codes left) (second : Reads true any left more scripts)
    (awaiting : Option Bool)
    (same : oddCount (filesOf (sourcesFrom awaiting arguments)) = oddCount (scripts.erase "--"))
    : dashedCount (filesOf (sourcesFrom awaiting arguments))
      ≤ dashedCount (scripts.erase "--") := by
  induction first generalizing any scripts awaiting with
  | done =>
      rw [filesOf_nil]
      exact Nat.zero_le _
  | @separator hasFile back =>
      cases hasFile with
      | true =>
          obtain ⟨_, rfl⟩ := second.of_separator
          rw [List.erase_cons_head]
          exact dashedCount_separator_le awaiting back
      | false =>
          have second : Reads true any back more scripts := second
          match awaiting with
          | none =>
              rw [sourcesFrom_separator, filesOf_map_file] at same ⊢
              obtain ⟨_, rfl, all⟩ := second.oddCount_le.2 same.symm
              rw [erase_separator all]
          | some true | some false => exact second.dashedCount_le none
  | @plain _ argument arguments _ _ plain _ ih =>
      have other := ne_separator_of_shape plain
      obtain ⟨_, scripts, rfl, following⟩ :=
        second.operand (isOperand_of_shape plain (.inl rfl)) other
      obtain ⟨later, dashes, odds⟩ := exists_counts_cons awaiting (.inr other) arguments
      rw [odds, oddCount_operand plain] at same
      rw [dashes]
      exact (ih following later same).trans (dashedCount_operand_le plain)
  | unknown _ unknown =>
      obtain ⟨plain, _⟩ :=
        second.operand (isOperand_of_shape unknown (.inr rfl)) (ne_separator_of_shape unknown)
      cases plain.symm.trans unknown
  | @option _ argument arguments _ _ _ _ _ _ dashed means _ _ ih =>
      have other := means.ne_separator dashed
      obtain ⟨later, dashes, odds⟩ := exists_counts_cons awaiting (.inr other) arguments
      rw [odds] at same
      rw [dashes]
      cases means with
      | switches | given => exact ih second later same
      | strange _ unknown single =>
          obtain ⟨plain, scripts, rfl, following⟩ :=
            second.operand (isOperand_of_unknown unknown _) (tail_ne_separator single)
          rw [oddCount_operand plain] at same
          exact (ih following later same).trans (dashedCount_operand_le plain)
  | @awaiting _ argument value arguments _ _ _ _ dashed means plain _ ih =>
      have other := means.ne_separator dashed
      obtain ⟨later, dashes, odds⟩ := exists_counts_cons awaiting (.inr other) (value :: arguments)
      obtain ⟨last, dashes', odds'⟩ :=
        exists_counts_cons later (.inr (ne_separator_of_shape plain)) arguments
      rw [odds, odds'] at same
      rw [dashes, dashes']
      exact ih second last same

/-- A dashed script file for which the other reader finds no file makes the two differ. -/
theorem Reads.filesOf_ne {hasFile : Bool} {codes : List String}
    (first : Reads false hasFile arguments codes left) (second : Reads true any left more scripts)
    {name : String} (plain : shape name = .ok .plain) (dashed : letters? name = some letters)
    (other : argument ≠ "--")
    : filesOf (sourcesFrom none (argument :: arguments)) ≠ (name :: scripts).erase "--" := by
  intro same
  obtain ⟨later, dashes, odds⟩ := exists_counts_cons none (.inr other) arguments
  rw [same, oddCount_operand plain] at odds
  rw [same, erase_cons_of_plain plain] at dashes
  have fewer := first.dashedCount_le_of_oddCount second later odds.symm
  have one : dashedCount (name :: scripts.erase "--") = dashedCount (scripts.erase "--") + 1 := by
    simp [dashedCount, dashed]
  omega

-----------------------------------------------------------------------------------------
-- Agreement
-----------------------------------------------------------------------------------------

theorem ofList_eq_unmarked_iff {text : List Char}
    : String.ofList text = String.ofList (unmarked text) ↔ text.head? ≠ some '=' := by
  rw [String.ofList_inj]
  cases text with
  | nil => simp [unmarked]
  | cons c text =>
      by_cases marked : c = '='
      · subst marked
        simp [unmarked]
      · simp [unmarked_of_ne marked, marked]

theorem orderly_separator (hasFile : Bool) (back : List String)
    : Orderly hasFile false ("--" :: back)
      ↔ hasFile = true ∨ ∀ name ∈ back, shape name = .ok .plain := by
  simp [Orderly]

theorem orderly_awaiting (hasFile : Bool) (value : String) (rest : List String)
    : Orderly hasFile true (value :: rest) ↔ Orderly hasFile false rest := by
  simp [Orderly]

theorem orderly_bare (bare : letters? argument = none) (hasFile : Bool) (rest : List String)
    : Orderly hasFile false (argument :: rest) ↔ Orderly true false rest := by
  have other : argument ≠ "--" := by
    rintro rfl
    cases bare
  simp [Orderly, other, bare]

theorem orderly_dashed (dashed : letters? argument = some letters) (other : argument ≠ "--")
    (hasFile : Bool) (rest : List String)
    : Orderly hasFile false (argument :: rest)
      ↔ match word letters with
        | .switches => Orderly hasFile false rest
        | .awaits _ => Orderly hasFile true rest
        | .given isCode text =>
            (isCode = true → text.head? ≠ some '=') ∧ Orderly hasFile false rest
        | .other _ => False := by
  simp only [Orderly, Bool.false_eq_true, if_false, other, dashed, Option.map_some]
  cases word letters <;> rfl

/-- Behind a separator that the first reading dropped, the names are the script files exactly if
they are all plain.
-/
theorem Reads.agree_separator_iff {hasFile : Bool} {back : List String}
    (second : Reads true any (if false || hasFile then "--" :: back else back) more scripts)
    : [] = [] ++ more ∧ back = scripts.erase "--"
      ↔ hasFile = true ∨ ∀ name ∈ back, shape name = .ok .plain := by
  cases hasFile with
  | true =>
      obtain ⟨rfl, rfl⟩ := second.of_separator
      exact iff_of_true ⟨rfl, (List.erase_cons_head "--" back).symm⟩ (.inl rfl)
  | false =>
      have second : Reads true any back more scripts := second
      obtain ⟨fewer, allPlain⟩ := second.oddCount_le
      constructor
      · rintro ⟨_, same⟩
        rw [← same] at allPlain
        exact .inr (allPlain rfl).2.2
      · rintro (no | all)
        · cases no
        · have none : oddCount back = 0 := by simpa [oddCount] using all
          obtain ⟨rfl, rfl, _⟩ := allPlain (by omega)
          exact ⟨rfl, (erase_separator all).symm⟩

/-- The two readers agree exactly on orderly arguments. Witness: along orderly arguments both
readers find the same, one by one. The first that is not orderly gives inline code that differs, or
a dashed script file that the other reader does not find, or odd names behind a separator that are
no files.
-/
theorem Reads.agree_iff {hasFile : Bool} {codes : List String}
    (first : Reads false hasFile arguments codes left) (second : Reads true any left more scripts)
    : codesOf (sourcesFrom none arguments) = codes ++ more
      ∧ filesOf (sourcesFrom none arguments) = scripts.erase "--"
      ↔ Orderly hasFile false arguments := by
  induction first generalizing any scripts with
  | done =>
      cases second
      exact iff_of_true ⟨rfl, rfl⟩ trivial
  | separator =>
      rw [orderly_separator, sourcesFrom_separator, codesOf_map_file, filesOf_map_file]
      exact second.agree_separator_iff
  | @plain hasFile argument arguments _ _ plain rest ih =>
      have other := ne_separator_of_shape plain
      have operand := isOperand_of_shape plain (.inl rfl)
      obtain ⟨_, scripts, rfl, following⟩ := second.operand operand other
      cases dashed : letters? argument with
      | none =>
          rw [orderly_bare dashed, ← ih following, sourcesFrom_bare dashed,
            erase_cons_of_plain plain]
          exact and_congr_right' (List.cons_inj_right argument)
      | some letters =>
          obtain ⟨_, senseless⟩ := operand letters dashed
          rw [orderly_dashed dashed other, senseless]
          exact iff_of_false (fun same => rest.filesOf_ne following plain dashed other same.2) id
  | unknown _ unknown =>
      obtain ⟨plain, _⟩ :=
        second.operand (isOperand_of_shape unknown (.inr rfl)) (ne_separator_of_shape unknown)
      cases plain.symm.trans unknown
  | @option hasFile argument arguments _ _ _ _ _ _ dashed means _ rest ih =>
      have other := means.ne_separator dashed
      have found := sourcesFrom_of_word dashed arguments
      rw [orderly_dashed dashed other]
      cases means with
      | switches same =>
          rw [same] at found ⊢
          rw [found]
          exact ih second
      | @given isCode text same =>
          rw [same] at found ⊢
          rw [found, ← ih second]
          cases isCode with
          | false => simp [codesOf, filesOf]
          | true => simp [codesOf, filesOf, ← ofList_eq_unmarked_iff, and_assoc]
      | strange same unknown single =>
          rw [same]
          obtain ⟨plain, scripts, rfl, following⟩ :=
            second.operand (isOperand_of_unknown unknown _) (tail_ne_separator single)
          exact iff_of_false
            (fun same => rest.filesOf_ne following plain (letters?_ofList _ _) other same.2) id
  | @awaiting hasFile argument value arguments _ _ _ _ dashed means plain _ ih =>
      have other := means.ne_separator dashed
      have found := sourcesFrom_of_word dashed (value :: arguments)
      rw [orderly_dashed dashed other]
      cases means with
      | @awaits isCode _ same next =>
          cases next
          rw [same] at found ⊢
          rw [found, orderly_awaiting, ← ih second]
          cases isCode <;> simp [sourcesFrom, codesOf, filesOf]

end SecondReading

-----------------------------------------------------------------------------------------
-- What is run
-----------------------------------------------------------------------------------------

/-- Runs the code that the arguments name, and takes no line from the user. -/
def runOnly (fuel : Nat) (world : World) (arguments : List String) (choices : Choices)
    : Option Result :=
  match loadBuffer world choices (Session.new world.settings world.console) with
  | .error result => some result
  | .ok s =>
      match runSources fuel world 0 s (sources arguments) with
      | none => none
      | some (.error result) => some result
      | some (.ok s) => some (finish s (.status 0))

theorem runChoices_eq_runOnly {chosen : Choices} (quiet : chosen.interactive = false)
    (code : chosen.codes ≠ [] ∨ chosen.scripts ≠ []) (fuel : Nat) (world : World)
    (arguments : List String)
    : runChoices fuel world arguments chosen = runOnly fuel world arguments chosen := by
  have hasCode : ((!chosen.scripts.isEmpty || !chosen.codes.isEmpty) && !chosen.interactive)
      = true := by
    rw [quiet]
    rcases code with code | code <;> simp [code]
  simp only [runChoices, hasCode, if_true]
  rfl

/-- Where the arguments are accepted, the code to run is exactly the inline code and the script
files that are chosen, each in order, if and only if the arguments are orderly. If they are, and
lines are not to be taken from the user, then the user is asked for one only if there was no code to
run.
-/
theorem sources_agree_iff {chosen : Choices} (accepted : choices arguments = .ok chosen)
    : (codesOf (sources arguments) = chosen.codes ∧ filesOf (sources arguments) = chosen.scripts
        ↔ Orderly false false arguments)
      ∧ (Orderly false false arguments → chosen.interactive = false → sources arguments ≠ []
          → ∀ fuel world, run fuel world arguments = runOnly fuel world arguments chosen) := by
  obtain ⟨codes, left, more, scripts, first, second, allCodes, allScripts⟩ :=
    exists_readings accepted
  have agree := first.agree_iff second
  rw [← allCodes, ← allScripts] at agree
  refine ⟨agree, ?_⟩
  intro orderly quiet nonempty fuel world
  obtain ⟨sameCodes, sameFiles⟩ := agree.mpr orderly
  have code := codesOf_ne_nil_or_filesOf_ne_nil nonempty
  rw [sources, sameCodes, sameFiles] at code
  rw [run, accepted]
  exact runChoices_eq_runOnly quiet code fuel world arguments

/-- Code that starts with a dash, attached code, and names behind a separator that would be options
before it.
-/
theorem sources_agree_behind_separator
    : let arguments := ["-c", "-1", "a", "-fb", "-c7", "--", "-c", "--"]
      let chosen : Choices := { codes := ["-1", "7"], buffer := "b", scripts := ["a", "-c", "--"] }
      choices arguments = .ok chosen
      ∧ sources arguments = [.code "-1", .file "a", .code "7", .file "-c", .file "--"]
      ∧ Orderly false false arguments
      ∧ ∀ fuel world, run fuel world arguments = runOnly fuel world arguments chosen := by
  intro arguments chosen
  have accepted : choices arguments = .ok chosen := by
    simp only [arguments, chosen]
    cbv
  have found : sources arguments
      = [.code "-1", .file "a", .code "7", .file "-c", .file "--"] := by
    simp only [arguments]
    cbv
  obtain ⟨agree, quietly⟩ := sources_agree_iff accepted
  rw [found] at agree quietly
  have orderly := agree.mp ⟨rfl, rfl⟩
  exact ⟨accepted, found, orderly, quietly orderly rfl (by simp)⟩

/-- Inline code behind an equals sign is run with the sign. -/
theorem sources_differ_behind_equals_sign
    : ∃ chosen,
        choices ["-c=5 println"] = .ok chosen
        ∧ chosen.codes = ["5 println"]
        ∧ codesOf (sources ["-c=5 println"]) = ["=5 println"] := by
  refine ⟨{ codes := ["5 println"] }, ?_, rfl, ?_⟩ <;> cbv

end StackText.CommandLine
