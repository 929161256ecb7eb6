import StackText.Proofs.CommandLine.OptionLetters

/-! What the two readings make of the arguments. Each argument is read in one of a few ways, which
say what inline code it gives and what it leaves: to the second reading, or as a script file.
-/

namespace StackText.CommandLine

/-- (Reads takesScripts hasFile arguments codes left) holds if a reading gets some inline code from
the arguments and leaves others. The reading that takes script files leaves only those; the other
drops a separator if no file stands before it.
-/
inductive Reads (takesScripts : Bool) : Bool → List String → List String → List String → Prop
  | done {hasFile}
    : Reads takesScripts hasFile [] [] []
  | separator {hasFile back}
    : Reads takesScripts hasFile ("--" :: back) []
        (if takesScripts || hasFile then "--" :: back else back)
  | plain {hasFile argument arguments codes left} (plain : shape argument = .ok .plain)
    (rest : Reads takesScripts true arguments codes left)
    : Reads takesScripts hasFile (argument :: arguments) codes (argument :: left)
  | unknown {hasFile argument arguments codes left} (first : takesScripts = false)
    (unknown : shape argument = .ok .unknown)
    (rest : Reads takesScripts hasFile arguments codes left)
    : Reads takesScripts hasFile (argument :: arguments) codes (argument :: left)
  | option {hasFile argument arguments codes left next letters own tail}
    (dashed : letters? argument = some letters) (means : Means next letters own tail false)
    (complete : takesScripts = true → tail = none)
    (rest : Reads takesScripts hasFile arguments codes left)
    : Reads takesScripts hasFile (argument :: arguments) (own ++ codes) (tail.toList ++ left)
  | awaiting {hasFile argument value arguments codes left letters own}
    (dashed : letters? argument = some letters) (means : Means (some value) letters own none true)
    (plain : shape value = .ok .plain) (rest : Reads takesScripts hasFile arguments codes left)
    : Reads takesScripts hasFile (argument :: value :: arguments) (own ++ codes) left

/-- The arguments that a reading has left for later: script files, if it takes them. -/
def Reading.kept (takesScripts : Bool) (r : Reading) : List String :=
  if takesScripts then r.choices.scripts else r.left

/-- (Gains takesScripts r last codes left) holds if a reading gets some inline code on the way from
one state to another, and leaves some arguments.
-/
structure Gains (takesScripts : Bool) (r last : Reading) (codes left : List String) : Prop where
  codes : last.choices.codes = r.choices.codes ++ codes
  kept : last.kept takesScripts = r.kept takesScripts ++ left
  scripts : takesScripts = false → last.choices.scripts = r.choices.scripts

variable {takesScripts : Bool} {r last : Reading} {argument : String} {arguments : List String}
  {list : List (String × Shape)}

-----------------------------------------------------------------------------------------
-- Arguments that are left
-----------------------------------------------------------------------------------------

theorem left_prefix_plain (argument : String) (isSeparator : Bool)
    : r.left <+: (r.plain takesScripts argument isSeparator).left := by
  unfold Reading.plain
  split
  · exact List.prefix_refl _
  · split
    · exact List.prefix_refl _
    · exact List.prefix_append _ _

@[simp]
theorem left_endRun (r : Reading)
    : r.endRun.left = r.left := by
  unfold Reading.endRun
  split <;> rfl

@[simp]
theorem choices_endRun (r : Reading)
    : r.endRun.choices = r.choices := by
  unfold Reading.endRun
  split <;> rfl

@[simp]
theorem skip_endRun (r : Reading)
    : r.endRun.skip = r.skip := by
  unfold Reading.endRun
  split <;> rfl

theorem phase_endRun (r : Reading)
    : r.endRun.phase ≠ .waiting ↔ r.phase ≠ .waiting := by
  unfold Reading.endRun
  split
  · next taking => simp [taking]
  · rfl

/-- Arguments that are left stay left. -/
theorem left_prefix (read : readAll takesScripts r list = .ok last)
    : r.left <+: last.left := by
  fun_induction readAll takesScripts r list with
  | case1 r =>
      cases read
      exact List.prefix_refl _
  | case2 r argument shape rest skip ih => exact ih read
  | case3 r argument rest skip ih => exact (left_prefix_plain argument false).trans (ih read)
  | case4 r argument rest skip ih => exact (left_prefix_plain argument true).trans (ih read)
  | case5 r argument rest skip r' ih =>
      rw [← left_endRun r]
      exact (List.prefix_append _ _).trans (ih read)
  | case6 => cases read
  | case7 => cases read
  | case8 r argument rest skip flag isLong attached r' cluster _ choices _ left ih =>
      rw [← left_endRun r]
      exact (List.prefix_append _ _).trans (ih read)

/-- Where nothing is left in the end, nothing is left before. -/
theorem left_of_complete (read : readAll takesScripts r list = .ok last)
    (complete : takesScripts = true → last.left = [])
    : takesScripts = true → r.left = [] :=
  fun scripts => List.prefix_nil.mp (complete scripts ▸ left_prefix read)

-----------------------------------------------------------------------------------------
-- One argument
-----------------------------------------------------------------------------------------

theorem Gains.refl (takesScripts : Bool) (r : Reading)
    : Gains takesScripts r r [] [] :=
  ⟨(List.append_nil _).symm, (List.append_nil _).symm, fun _ => rfl⟩

theorem Gains.trans {mid : Reading} {codes left codes' left' : List String}
    (first : Gains takesScripts r mid codes left)
    (second : Gains takesScripts mid last codes' left')
    : Gains takesScripts r last (codes ++ codes') (left ++ left') := by
  constructor
  · rw [second.codes, first.codes, List.append_assoc]
  · rw [second.kept, first.kept, List.append_assoc]
  · exact fun first' => (second.scripts first').trans (first.scripts first')

/-- An argument that is no option is kept, unless it is a separator that is dropped. -/
theorem gains_plain {isSeparator : Bool}
    (kept : isSeparator = false ∨ takesScripts = true ∨ r.phase ≠ .waiting)
    (complete : takesScripts = true → (r.plain takesScripts argument isSeparator).left = [])
    : Gains takesScripts r (r.plain takesScripts argument isSeparator) [] [argument] := by
  unfold Reading.plain at complete ⊢
  cases takesScripts with
  | true =>
      by_cases closed : r.phase = .closed
      · simp [closed] at complete
      · simp only [ne_eq, closed, not_false_eq_true, decide_true, Bool.and_true, if_true]
        exact ⟨(List.append_nil _).symm, rfl, nofun⟩
  | false =>
      have stays : (decide (r.phase = .waiting) && isSeparator) = false := by
        rcases kept with rfl | none | started
        · exact Bool.and_false _
        · cases none
        · simp [started]
      simp only [Bool.false_and, Bool.false_eq_true, if_false, stays]
      exact ⟨(List.append_nil _).symm, rfl, fun _ => rfl⟩

/-- The first reading drops a separator before all files. -/
theorem gains_dropped (waiting : r.phase = .waiting)
    : Gains false r (r.plain false argument true) [] [] := by
  simp only [Reading.plain, waiting, Bool.false_and, Bool.false_eq_true, if_false, decide_true,
    Bool.and_self, if_true]
  exact ⟨(List.append_nil _).symm, (List.append_nil _).symm, fun _ => rfl⟩

theorem phase_plain (argument : String)
    : (r.plain takesScripts argument false).phase ≠ .waiting := by
  unfold Reading.plain
  split
  · exact nofun
  · simp

@[simp]
theorem skip_plain (argument : String) (isSeparator : Bool)
    : (r.plain takesScripts argument isSeparator).skip = r.skip := by
  unfold Reading.plain
  split
  · rfl
  · split <;> rfl

/-- The reading that takes script files leaves nothing else. -/
theorem gains_unknown {skip : Bool}
    (complete : takesScripts = true → r.endRun.left ++ [argument] = [])
    : takesScripts = false
      ∧ Gains takesScripts r { r.endRun with left := r.endRun.left ++ [argument], skip } []
          [argument] := by
  cases takesScripts with
  | true => simp at complete
  | false => exact ⟨rfl, by simp, by simp [Reading.kept], by simp⟩

/-- An option changes the choices and may leave a text that means nothing. -/
theorem gains_option {choices : Choices} {codes : List String} {tail : Option String} {skip : Bool}
    (more : choices.codes = r.choices.codes ++ codes)
    (scripts : choices.scripts = r.choices.scripts)
    (complete : takesScripts = true → r.endRun.left ++ tail.toList = [])
    : (takesScripts = true → tail = none)
      ∧ Gains takesScripts r { r.endRun with choices, left := r.endRun.left ++ tail.toList, skip }
          codes tail.toList := by
  have nothing : takesScripts = true → tail = none := by
    intro taking
    cases tail with
    | none => rfl
    | some text => exact absurd (complete taking) (by simp)
  refine ⟨nothing, more, ?_, fun _ => scripts⟩
  cases takesScripts with
  | true => simp [Reading.kept, scripts, nothing rfl]
  | false => simp [Reading.kept]

/-- Behind the separator all arguments are kept. -/
theorem gains_behind_separator {back : List String} (ready : r.skip = false)
    (read : readAll takesScripts r (back.map (·, Shape.plain)) = .ok last)
    (complete : takesScripts = true → last.left = [])
    : Gains takesScripts r last [] back := by
  induction back generalizing r with
  | nil =>
      cases read
      exact .refl _ _
  | cons argument back ih =>
      rw [List.map_cons, readAll, if_neg (by simp [ready])] at read
      have plain := gains_plain (.inl rfl) (left_of_complete read complete)
      exact plain.trans (ih (by simp [ready]) read)

-----------------------------------------------------------------------------------------
-- All arguments
-----------------------------------------------------------------------------------------

theorem shapes_cons (argument : String) (shaped : shapes (argument :: arguments) = .ok list)
    : argument = "--" ∧ list = (argument, .separator) :: arguments.map (·, .plain)
      ∨ argument ≠ "--"
        ∧ ∃ shaping rest,
            shape argument = .ok shaping
            ∧ shapes arguments = .ok rest
            ∧ list = (argument, shaping) :: rest := by
  rw [shapes] at shaped
  split at shaped
  · next same =>
      cases shaped
      exact .inl ⟨same, rfl⟩
  · next other =>
      cases first : shape argument with
      | error fault => rw [first] at shaped; cases shaped
      | ok shaping =>
          cases behind : shapes arguments with
          | error fault => rw [first, behind] at shaped; cases shaped
          | ok rest =>
              rw [first, behind] at shaped
              cases shaped
              exact .inr ⟨other, shaping, rest, rfl, rfl, rfl⟩

/-- An option takes the next argument only if that is plain. -/
theorem exists_value {value : String} (shaped : shapes arguments = .ok list)
    (next : plainHead? list = some value)
    : ∃ rest behind,
        arguments = value :: rest
        ∧ list = (value, .plain) :: behind
        ∧ shape value = .ok .plain
        ∧ shapes rest = .ok behind := by
  cases arguments with
  | nil => cases shaped; cases next
  | cons argument rest =>
      rcases shapes_cons argument shaped with ⟨_, rfl⟩ | ⟨_, shaping, behind, first, following, rfl⟩
      · cases next
      · cases shaping with
        | plain =>
            cases next
            exact ⟨rest, behind, rfl, rfl, first, following⟩
        | _ => cases next

/-- What follows the separator of a reading. -/
theorem exists_reads_separator {back : List String} (ready : r.skip = false)
    (read : readAll takesScripts r (("--", .separator) :: back.map (·, .plain)) = .ok last)
    (complete : takesScripts = true → last.left = [])
    : ∃ left,
        Reads takesScripts (r.phase ≠ .waiting) ("--" :: back) [] left
        ∧ Gains takesScripts r last [] left := by
  rw [readAll, if_neg (by simp [ready])] at read
  have behind := gains_behind_separator (by simp [ready]) read complete
  refine ⟨_, .separator, ?_⟩
  by_cases kept : takesScripts = true ∨ r.phase ≠ .waiting
  · have stays := gains_plain (.inr kept) (left_of_complete read complete)
    rw [if_pos (by simpa using kept)]
    exact stays.trans behind
  · obtain ⟨first, waiting⟩ := not_or.mp kept
    obtain rfl := eq_false_of_ne_true first
    rw [if_neg (by simpa using waiting)]
    exact (gains_dropped (not_not.mp waiting)).trans behind

/-- The options that a reading goes on behind have a letter. -/
theorem exists_letters_of_option {flag : Flag} {isLong : Bool} {attached : Option Attached}
    {next : Option String} {cluster : Cluster} {given chosen : Choices}
    (shaped : shape argument = .ok (.option flag isLong attached))
    (read : readOption next flag isLong attached = .ok cluster)
    (follows : cluster.chosen.foldlM Choices.choose given = .ok chosen)
    : ∃ letters codes,
        letters? argument = some letters
        ∧ Means next letters codes cluster.unknown cluster.takesNext
        ∧ chosen.codes = given.codes ++ codes
        ∧ chosen.scripts = given.scripts := by
  cases shaped_of_shape shaped with
  | option dashed known =>
      obtain ⟨codes, means, same⟩ := exists_means known read follows
      exact ⟨_, codes, dashed, means, same⟩
  | long ends =>
      cases attached with
      | none => rcases ends with rfl | rfl <;> cases read <;> cases follows
      | some attached => cases read
  | strange dashed unknown other => rcases other with other | other <;> cases other

/-- A reading that comes to its end has read each argument in one of the ways there are. Witness: by
recursion over the arguments, of which an option may take two.
-/
theorem exists_reads {arguments : List String} {list : List (String × Shape)} {r : Reading}
    (shaped : shapes arguments = .ok list) (ready : r.skip = false)
    (read : readAll takesScripts r list = .ok last)
    (complete : takesScripts = true → last.left = [])
    : ∃ codes left,
        Reads takesScripts (r.phase ≠ .waiting) arguments codes left
        ∧ Gains takesScripts r last codes left := by
  match arguments with
  | [] =>
      cases shaped
      cases read
      exact ⟨[], [], .done, .refl _ _⟩
  | argument :: rest =>
      rcases shapes_cons argument shaped with ⟨rfl, rfl⟩
        | ⟨_, shaping, behind, first, following, rfl⟩
      · obtain ⟨left, reads, gains⟩ := exists_reads_separator ready read complete
        exact ⟨[], left, reads, gains⟩
      cases shaping with
      | separator =>
          cases shaped_of_shape first with
          | strange _ _ other => rcases other with other | other <;> cases other
      | plain =>
          rw [readAll, if_neg (by simp [ready])] at read
          have gains := gains_plain (.inl rfl) (left_of_complete read complete)
          obtain ⟨codes, left, reads, more⟩ :=
            exists_reads following (by simp [ready]) read complete
          rw [decide_eq_true (phase_plain argument)] at reads
          exact ⟨codes, _, .plain first reads, gains.trans more⟩
      | unknown =>
          rw [readAll, if_neg (by simp [ready])] at read
          obtain ⟨firstReading, gains⟩ := gains_unknown (left_of_complete read complete)
          obtain ⟨codes, left, reads, more⟩ :=
            exists_reads following (by simp [ready]) read complete
          rw [decide_eq_decide.mpr (phase_endRun r)] at reads
          exact ⟨codes, _, .unknown firstReading first reads, gains.trans more⟩
      | option flag isLong attached =>
          rw [readAll, if_neg (by simp [ready])] at read
          dsimp only at read
          split at read
          · cases read
          next cluster reading =>
          split at read
          · cases read
          next choices chosen =>
          rw [choices_endRun] at chosen
          obtain ⟨letters, own, dashed, means, same, scripts⟩ :=
            exists_letters_of_option first reading chosen
          obtain ⟨whole, gains⟩ := gains_option same scripts (left_of_complete read complete)
          obtain ⟨_, tail, takesNext⟩ := cluster
          cases takesNext with
          | false =>
              obtain ⟨codes, left, reads, more⟩ := exists_reads following rfl read complete
              rw [decide_eq_decide.mpr (phase_endRun r)] at reads
              exact ⟨_, _, .option dashed means whole reads, gains.trans more⟩
          | true =>
              cases means with
              | awaits word next =>
                  obtain ⟨arguments, behind, rfl, rfl, plain, following⟩ :=
                    exists_value following next
                  obtain ⟨codes, left, reads, more⟩ := exists_reads following rfl read complete
                  rw [decide_eq_decide.mpr (phase_endRun r)] at reads
                  exact ⟨_, _, .awaiting dashed (.awaits word next) plain reads, gains.trans more⟩
termination_by arguments.length

theorem exists_readAll {given chosen : Choices} {left : List String}
    (read : reading takesScripts given arguments = .ok (chosen, left))
    : ∃ list last,
        shapes arguments = .ok list
        ∧ readAll takesScripts { choices := given } list = .ok last
        ∧ last.choices = chosen
        ∧ last.left = left := by
  unfold reading at read
  split at read
  · cases read
  next list shaped =>
  split at read
  · cases read
  next last read' =>
  cases read
  exact ⟨list, last, shaped, read', rfl, rfl⟩

/-- Arguments that are accepted are read twice: what the first reading leaves, the second takes as
script files, up to the separator among them.
-/
theorem exists_readings {chosen : Choices} (accepted : choices arguments = .ok chosen)
    : ∃ codes left more scripts,
        Reads false false arguments codes left
        ∧ Reads true false left more scripts
        ∧ chosen.codes = codes ++ more
        ∧ chosen.scripts = scripts.erase "--" := by
  unfold choices at accepted
  split at accepted
  · cases accepted
  next middle left first =>
  split at accepted
  · cases accepted
  · next last second =>
      cases accepted
      obtain ⟨_, middle, shaped, read, rfl, rfl⟩ := exists_readAll first
      obtain ⟨_, last, shaped', read', rfl, nothing⟩ := exists_readAll second
      obtain ⟨codes, left, reads, gains⟩ := exists_reads shaped rfl read nofun
      obtain ⟨more, scripts, reads', gains'⟩ := exists_reads shaped' rfl read' fun _ => nothing
      obtain rfl : _ = left := gains.kept
      refine ⟨codes, _, more, scripts, reads, reads', ?_, ?_⟩
      · rw [gains'.codes, gains.codes]
        rfl
      · have none : middle.choices.scripts = [] := gains.scripts rfl
        have taken : last.choices.scripts = middle.choices.scripts ++ scripts := gains'.kept
        rw [none] at taken
        exact congrArg (List.erase · "--") taken
  · cases accepted

-----------------------------------------------------------------------------------------
-- The second reading
-----------------------------------------------------------------------------------------

variable {hasFile : Bool} {left more scripts : List String}

/-- An operand that the first reading leaves is taken as a script file, or not at all. -/
theorem Reads.operand (second : Reads true hasFile (argument :: left) more scripts)
    (operand : IsOperand argument) (other : argument ≠ "--")
    : shape argument = .ok .plain
      ∧ ∃ later, scripts = argument :: later ∧ Reads true true left more later := by
  cases second with
  | separator => exact absurd rfl other
  | plain plain rest => exact ⟨plain, _, rfl, rest⟩
  | unknown first => cases first
  | option dashed means complete =>
      obtain rfl := complete rfl
      exact absurd operand (means.not_isOperand dashed)
  | awaiting dashed means => exact absurd operand (means.not_isOperand dashed)

/-- The separator that the first reading leaves is one for the second as well. -/
theorem Reads.of_separator (second : Reads true hasFile ("--" :: left) more scripts)
    : more = [] ∧ scripts = "--" :: left := by
  cases second with
  | separator => exact ⟨rfl, rfl⟩
  | plain plain => exact absurd rfl (ne_separator_of_shape plain)
  | unknown first => cases first
  | option dashed means => exact absurd rfl (means.ne_separator dashed)
  | awaiting dashed means => exact absurd rfl (means.ne_separator dashed)

end StackText.CommandLine
