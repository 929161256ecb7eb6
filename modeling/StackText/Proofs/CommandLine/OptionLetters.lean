import Mathlib.Data.List.TakeDrop
import StackText.CommandLine.Arguments

/-! What one argument says. The letters behind a dash are switches up to the first that takes an
argument of its own, and an argument that is read to its end says what its letters say.
-/

namespace StackText.CommandLine

/-- The letters of an argument that starts with a dash. -/
def letters? (argument : String) : Option (List Char) :=
  match argument.toList with
  | '-' :: c :: rest => some (c :: rest)
  | _ => none

/-- What letters behind a dash say, once the switches at their front are passed. -/
inductive Word where
  /-- There are only switches. -/
  | switches
  /-- The last letter takes the next argument. -/
  | awaits (isCode : Bool)
  /-- A letter takes the text behind it. -/
  | given (isCode : Bool) (text : List Char)
  /-- What follows the switches is none of these. -/
  | other (rest : List Char)
  deriving DecidableEq

/-- The word that letters make. -/
def word : List Char → Word
  | [] => .switches
  | 'i' :: letters => word letters
  | ['c'] => .awaits true
  | ['f'] => .awaits false
  | 'c' :: text => .given true text
  | 'f' :: text => .given false text
  | rest => .other rest

/-- The text behind the letter of an option. -/
def attached : List Char → Option Attached
  | [] => none
  | '=' :: value => some ⟨true, value⟩
  | text => some ⟨false, text⟩

/-- A text without the equals sign at its front. -/
def unmarked : List Char → List Char
  | '=' :: value => value
  | text => text

/-- (Means next letters codes unknown takesNext) holds if letters behind a dash give some inline
code, leave some text that means nothing, and take the next argument or not.
-/
inductive Means (next : Option String) (letters : List Char)
    : List String → Option String → Bool → Prop
  | switches (same : word letters = .switches)
    : Means next letters [] none false
  | awaits {isCode text} (same : word letters = .awaits isCode) (own : next = some text)
    : Means next letters (if isCode then [text] else []) none true
  | given {isCode text} (same : word letters = .given isCode text)
    : Means next letters (if isCode then [String.ofList (unmarked text)] else []) none false
  | strange {c rest} (same : word letters = .other (c :: rest)) (unknown : letter? c = none)
    (single : c ≠ '-')
    : Means next letters [] (some (String.ofList ('-' :: c :: rest))) false

/-- The shapes of an argument by its letters. -/
inductive Shaped (argument : String) : Shape → Prop
  | bare (none : letters? argument = none)
    : Shaped argument .plain
  | option {c rest flag} (dashed : letters? argument = some (c :: rest))
    (known : letter? c = some flag)
    : Shaped argument (.option flag false (attached rest))
  | long {flag attached} (ends : flag = .help ∨ flag = .version)
    : Shaped argument (.option flag true attached)
  | strange {c rest shape} (dashed : letters? argument = some (c :: rest))
    (unknown : letter? c = none) (other : shape = .plain ∨ shape = .unknown)
    : Shaped argument shape

variable {argument : String} {c : Char} {rest : List Char} {flag : Flag}

theorem letters?_eq_some_iff
    : letters? argument = some (c :: rest) ↔ argument.toList = '-' :: c :: rest := by
  unfold letters?
  split
  · next same => simp [same]
  · next other => exact iff_of_false nofun (other c rest)

theorem letters?_ofList (c : Char) (rest : List Char)
    : letters? (String.ofList ('-' :: c :: rest)) = some (c :: rest) := by
  rw [letters?_eq_some_iff, String.toList_ofList]

theorem exists_cons_of_letters? {letters : List Char} (dashed : letters? argument = some letters)
    : ∃ c rest, letters = c :: rest := by
  unfold letters? at dashed
  split at dashed
  · cases dashed
    exact ⟨_, _, rfl⟩
  · cases dashed

theorem letters?_of_bare (bare : ∀ c rest, argument.toList ≠ '-' :: c :: rest)
    : letters? argument = none := by
  unfold letters?
  split
  · next same => exact absurd same (bare _ _)
  · rfl

theorem attached_of_ne {more : List Char} (other : c ≠ '=')
    : attached (c :: more) = some ⟨false, c :: more⟩ := by
  unfold attached
  split
  · next same => cases same
  · next same => cases same; exact absurd rfl other
  · rfl

theorem unmarked_of_ne {more : List Char} (other : c ≠ '=')
    : unmarked (c :: more) = c :: more := by
  unfold unmarked
  split
  · next same => cases same; exact absurd rfl other
  · rfl

-----------------------------------------------------------------------------------------
-- The shapes of arguments
-----------------------------------------------------------------------------------------

theorem mem_spellings {spelling : String} (known : flag? spelling = some flag)
    : (spelling, flag) ∈ spellings := by
  obtain ⟨front, back, same, _⟩ := List.lookup_eq_some_iff.mp known
  simp [same]

/-- The letters of the options. -/
theorem letter?_cases (known : letter? c = some flag)
    : (flag = .help ∨ flag = .version)
      ∨ c = 'i' ∧ flag = .interactive
      ∨ ∃ isCode : Bool,
          c = (if isCode then 'c' else 'f') ∧ flag = (if isCode then .code else .buffer) := by
  have member : c = 'h' ∧ flag = .help ∨ c = 'i' ∧ flag = .interactive ∨ c = 'c' ∧ flag = .code
      ∨ c = 'f' ∧ flag = .buffer ∨ c = 'v' ∧ flag = .version := by
    simpa [spellings, String.ext_iff] using mem_spellings known
  rcases member with ⟨_, rfl⟩ | ⟨rfl, rfl⟩ | ⟨rfl, rfl⟩ | ⟨rfl, rfl⟩ | ⟨_, rfl⟩
  · exact .inl (.inl rfl)
  · exact .inr (.inl ⟨rfl, rfl⟩)
  · exact .inr (.inr ⟨true, rfl, rfl⟩)
  · exact .inr (.inr ⟨false, rfl, rfl⟩)
  · exact .inl (.inr rfl)

/-- An exact spelling is that of a letter, or one of the two long names. -/
theorem shaped_of_spelling (known : flag? argument = some flag)
    : Shaped argument (.option flag (argument.startsWith "--") none) := by
  have member := mem_spellings known
  simp only [spellings, List.mem_cons, Prod.mk.injEq, List.not_mem_nil, or_false] at member
  have short : ∀ c : Char, letters? argument = some [c] → argument.startsWith "--" = false
      → letter? c = some flag → Shaped argument (.option flag (argument.startsWith "--") none) :=
    fun _ dashed short known => short ▸ .option dashed known
  have long : argument.startsWith "--" = true → flag = .help ∨ flag = .version
      → Shaped argument (.option flag (argument.startsWith "--") none) :=
    fun long ends => long ▸ .long ends
  rcases member with ⟨rfl, rfl⟩ | ⟨rfl, rfl⟩ | ⟨rfl, rfl⟩ | ⟨rfl, rfl⟩ | ⟨rfl, rfl⟩ | ⟨rfl, rfl⟩
    | ⟨rfl, rfl⟩
  · exact short 'h' rfl (by simp) rfl
  · exact long (by simp) (.inl rfl)
  · exact short 'i' rfl (by simp) rfl
  · exact short 'c' rfl (by simp) rfl
  · exact short 'f' rfl (by simp) rfl
  · exact short 'v' rfl (by simp) rfl
  · exact long (by simp) (.inr rfl)

/-- The part of a text before its first equals sign. -/
theorem splitEquals_fst (text : List Char)
    : (splitEquals text).1 = text.takeWhile (· ≠ '=') := by
  simp only [splitEquals, List.span_eq_takeWhile_dropWhile]
  split <;> simp_all

/-- A text that begins the name of just one option begins a long name. -/
theorem shaped_of_longShape {tail : List Char} {s : Shape}
    (dashed : argument.toList = '-' :: '-' :: tail) (long : longShape argument = .ok (some s))
    : Shaped argument s := by
  simp only [longShape, splitEquals_fst] at long
  split at long
  · cases long
  · next spelling flag only =>
      cases long
      have member : (spelling, flag) ∈ [(spelling, flag)] := List.mem_singleton_self _
      rw [← only, List.mem_filter, dashed] at member
      obtain ⟨known, begins⟩ := member
      refine .long ?_
      simp only [spellings, List.mem_cons, Prod.mk.injEq, List.not_mem_nil, or_false] at known
      rcases known with ⟨rfl, rfl⟩ | ⟨rfl, rfl⟩ | ⟨rfl, rfl⟩ | ⟨rfl, rfl⟩ | ⟨rfl, rfl⟩ | ⟨rfl, rfl⟩
        | ⟨rfl, rfl⟩
      all_goals simp at begins ⊢
  · cases long

/-- Every shape is one that the letters of the argument allow. -/
theorem shaped_of_shape {s : Shape} (shaped : shape argument = .ok s)
    : Shaped argument s := by
  simp only [shape] at shaped
  have other : ∀ isPlain : Prop, [Decidable isPlain]
      → (if isPlain then Shape.plain else .unknown) = .plain
        ∨ (if isPlain then Shape.plain else .unknown) = .unknown := by
    intro isPlain _
    split <;> simp
  split at shaped
  · next known =>
      cases shaped
      exact shaped_of_spelling known
  · next dashed =>
      cases long : longShape argument with
      | error fault =>
          rw [long] at shaped
          cases shaped
      | ok found =>
          rw [long] at shaped
          cases found with
          | none =>
              cases shaped
              exact .strange (letters?_eq_some_iff.mpr dashed) (by decide) (other _)
          | some found =>
              cases shaped
              exact shaped_of_longShape dashed long
  · next c rest _ spelled dashed =>
      have spelling : rest = [] → letter? c = none := by
        rintro rfl
        rwa [letter?, ← dashed, String.ofList_toList]
      replace dashed := letters?_eq_some_iff.mpr dashed
      split at shaped
      · next known =>
          cases shaped
          exact .option dashed known
      · next rest _ _ flag known unmarked =>
          cases shaped
          cases rest with
          | nil => cases (spelling rfl).symm.trans known
          | cons d more =>
              have other : d ≠ '=' := by
                rintro rfl
                exact unmarked _ rfl
              exact attached_of_ne other ▸ .option dashed known
      · next unknown =>
          cases shaped
          exact .strange dashed unknown (other _)
  · next bare =>
      cases shaped
      exact .bare (letters?_of_bare bare)

theorem letters?_ne_none_of_spelling (known : flag? argument = some flag)
    : letters? argument ≠ none := by
  have member := mem_spellings known
  simp only [spellings, List.mem_cons, Prod.mk.injEq, List.not_mem_nil, or_false] at member
  rcases member with ⟨rfl, _⟩ | ⟨rfl, _⟩ | ⟨rfl, _⟩ | ⟨rfl, _⟩ | ⟨rfl, _⟩ | ⟨rfl, _⟩ | ⟨rfl, _⟩
  all_goals nofun

/-- An argument without letters is plain. -/
theorem shape_of_bare (bare : letters? argument = none)
    : shape argument = .ok .plain := by
  simp only [shape]
  split
  · next known => exact absurd bare (letters?_ne_none_of_spelling known)
  · next dashed => cases (letters?_eq_some_iff.mpr dashed).symm.trans bare
  · next dashed => cases (letters?_eq_some_iff.mpr dashed).symm.trans bare
  · rfl

-----------------------------------------------------------------------------------------
-- What letters say
-----------------------------------------------------------------------------------------

/-- A switch adds nothing to what the letters behind it say. -/
theorem Means.interactive {next : Option String} {letters : List Char} {codes : List String}
    {unknown : Option String} {takesNext : Bool}
    (means : Means next letters codes unknown takesNext)
    : Means next ('i' :: letters) codes unknown takesNext := by
  cases means with
  | switches same => exact .switches same
  | awaits same own => exact .awaits same own
  | given same => exact .given same
  | strange same unknown single => exact .strange same unknown single

/-- A letter that is no option starts no word. -/
theorem word_of_unknown (unknown : letter? c = none) (rest : List Char)
    : word (c :: rest) = .other (c :: rest) := by
  unfold word
  split
  · next same => cases same
  · next same => cases same; cases unknown
  · next same => cases same; cases unknown
  · next same => cases same; cases unknown
  · next same => cases same; cases unknown
  · next same => cases same; cases unknown
  · rfl

/-- An argument for an option is the text behind its letter, or else the next argument. -/
theorem readOption_of_takesArgument (takes : flag.takesArgument = true) (next : Option String)
    (rest : List Char)
    : readOption next flag false (attached rest)
      = if rest = [] then alone next flag
        else .ok ⟨[(flag, String.ofList (unmarked rest))], none, false⟩ := by
  cases rest with
  | nil => rfl
  | cons c more =>
      rw [if_neg (List.cons_ne_nil c more)]
      by_cases marked : c = '='
      · subst marked
        cases more <;> simp [attached, readOption, cluster, takes, unmarked]
      · simp [attached_of_ne marked, readOption, cluster, takes, unmarked_of_ne marked]

/-- An option without an argument passes on what the letters behind it say. -/
theorem readOption_of_switch (switch : flag.takesArgument = false) (next : Option String) (d : Char)
    (more : List Char)
    : readOption next flag false (attached (d :: more))
      = if d = '=' then .error (.needlessArgument flag (String.ofList more))
        else if d = '-' then .error (.needlessArgument flag (String.ofList (d :: more)))
        else
          match letter? d with
          | none => .ok ⟨[(flag, "")], some (String.ofList ('-' :: d :: more)), false⟩
          | some inner =>
              (readOption next inner false (attached more)).map fun tail =>
                { tail with chosen := (flag, "") :: tail.chosen } := by
  by_cases marked : d = '='
  · subst marked
    rw [if_pos rfl]
    cases more <;> simp [attached, readOption, cluster, switch]
  rw [attached_of_ne marked, if_neg marked]
  simp only [readOption]
  rw [cluster]
  simp only [switch, Bool.false_eq_true, if_false, Bool.false_or, decide_eq_true_eq]
  by_cases dashed : d = '-'
  · simp [dashed]
  cases letter? d with
  | none => simp [dashed]
  | some inner =>
      cases more with
      | nil => simp [dashed, attached]
      | cons e more =>
          by_cases marked : e = '='
          · subst marked
            simp [dashed, attached]
          · simp [dashed, attached_of_ne marked]

section Meaning

variable {next : Option String} {cluster : Cluster} {given last : Choices}

/-- Nothing is chosen by letters that begin with the help or the version. -/
theorem choose_of_ends (ends : flag = .help ∨ flag = .version)
    (read : readOption next flag false (attached rest) = .ok cluster)
    : cluster.chosen.foldlM Choices.choose given ≠ .ok last := by
  have switch : flag.takesArgument = false := by
    rcases ends with rfl | rfl <;> rfl
  have first : ∃ more, cluster.chosen = (flag, "") :: more := by
    cases rest with
    | nil =>
        simp only [attached, readOption, alone, switch, Except.ok.injEq] at read
        exact ⟨[], by rw [← read]⟩
    | cons d more =>
        rw [readOption_of_switch switch] at read
        split at read
        · cases read
        split at read
        · cases read
        split at read
        · cases read
          exact ⟨[], rfl⟩
        · next inner _ =>
            cases behind : readOption next inner false (attached more) with
            | error fault => rw [behind] at read; cases read
            | ok tail => rw [behind] at read; cases read; exact ⟨_, rfl⟩
  obtain ⟨more, same⟩ := first
  rw [same]
  rcases ends with rfl | rfl <;> nofun

/-- Letters that begin with an option with an argument say what it is. -/
theorem exists_means_of_takesArgument {isCode : Bool}
    (read : readOption next (if isCode then .code else .buffer) false (attached rest) = .ok cluster)
    (chosen : cluster.chosen.foldlM Choices.choose given = .ok last)
    : ∃ codes,
        Means next ((if isCode then 'c' else 'f') :: rest) codes cluster.unknown cluster.takesNext
        ∧ last.codes = given.codes ++ codes
        ∧ last.scripts = given.scripts := by
  have takes : (if isCode then Flag.code else .buffer).takesArgument = true := by
    cases isCode <;> rfl
  have same : word ((if isCode then 'c' else 'f') :: rest)
      = if rest = [] then .awaits isCode else .given isCode rest := by
    cases isCode <;> cases rest <;> rfl
  have follows : ∀ text,
      [(if isCode then Flag.code else .buffer, text)].foldlM Choices.choose given = .ok last
      → last.codes = given.codes ++ (if isCode then [text] else [])
        ∧ last.scripts = given.scripts := by
    intro text chosen
    cases isCode <;> cases chosen <;> simp
  rw [readOption_of_takesArgument takes] at read
  split at read
  · next empty =>
      rw [if_pos empty] at same
      cases next with
      | none => simp [alone, takes] at read
      | some text =>
          simp only [alone, takes, Except.ok.injEq] at read
          subst read
          exact ⟨_, .awaits same rfl, follows text chosen⟩
  · next nonempty =>
      rw [if_neg nonempty] at same
      cases read
      exact ⟨_, .given same, follows _ chosen⟩

/-- An option that is read, and then followed without quitting, says what its letters say. Witness:
the switches are passed one by one, up to the first letter that is none.
-/
theorem exists_means (known : letter? c = some flag)
    (read : readOption next flag false (attached rest) = .ok cluster)
    (chosen : cluster.chosen.foldlM Choices.choose given = .ok last)
    : ∃ codes,
        Means next (c :: rest) codes cluster.unknown cluster.takesNext
        ∧ last.codes = given.codes ++ codes
        ∧ last.scripts = given.scripts := by
  induction rest generalizing c flag cluster given with
  | nil =>
      rcases letter?_cases known with ends | ⟨rfl, rfl⟩ | ⟨isCode, rfl, rfl⟩
      · exact absurd chosen (choose_of_ends ends read)
      · cases read
        cases chosen
        exact ⟨[], .switches rfl, by simp, rfl⟩
      · exact exists_means_of_takesArgument read chosen
  | cons d more ih =>
      rcases letter?_cases known with ends | ⟨rfl, rfl⟩ | ⟨isCode, rfl, rfl⟩
      · exact absurd chosen (choose_of_ends ends read)
      · rw [readOption_of_switch rfl] at read
        split at read
        · cases read
        split at read
        · cases read
        next single =>
        split at read
        · next unknown =>
            cases read
            cases chosen
            exact ⟨[], .strange (word_of_unknown unknown more) unknown single, by simp, rfl⟩
        · next inner inside =>
            cases behind : readOption next inner false (attached more) with
            | error fault => rw [behind] at read; cases read
            | ok tail =>
                rw [behind] at read
                cases read
                obtain ⟨codes, means, same⟩ := ih inside behind chosen
                exact ⟨codes, means.interactive, same⟩
      · exact exists_means_of_takesArgument read chosen

end Meaning

-----------------------------------------------------------------------------------------
-- Separators and operands
-----------------------------------------------------------------------------------------

/-- (IsOperand argument) holds if an argument has no letters that make a word. -/
def IsOperand (argument : String) : Prop :=
  ∀ letters, letters? argument = some letters → ∃ rest, word letters = .other rest

theorem shape_separator
    : shape "--" = .error (.ambiguous "--" ["--help", "--version"]) := rfl

theorem ne_separator_of_shape {s : Shape} (shaped : shape argument = .ok s)
    : argument ≠ "--" := by
  rintro rfl
  cases shape_separator.symm.trans shaped

/-- An argument that is plain, or that looks like an option and is none, is an operand. -/
theorem isOperand_of_shape {s : Shape} (shaped : shape argument = .ok s)
    (other : s = .plain ∨ s = .unknown)
    : IsOperand argument := by
  intro letters dashed
  cases shaped_of_shape shaped with
  | bare none => cases none.symm.trans dashed
  | option | long => rcases other with other | other <;> cases other
  | strange dashed' unknown =>
      cases dashed'.symm.trans dashed
      exact ⟨_, word_of_unknown unknown _⟩

/-- The text that an option leaves is an operand. -/
theorem isOperand_of_unknown (unknown : letter? c = none) (rest : List Char)
    : IsOperand (String.ofList ('-' :: c :: rest)) := by
  intro letters dashed
  rw [letters?_ofList] at dashed
  cases dashed
  exact ⟨_, word_of_unknown unknown rest⟩

theorem tail_ne_separator (single : c ≠ '-')
    : String.ofList ('-' :: c :: rest) ≠ "--" := by
  intro same
  have text := congrArg String.toList same
  rw [String.toList_ofList] at text
  cases text
  exact single rfl

section Options

variable {letters : List Char} {next tail : Option String} {own : List String} {takesNext : Bool}

/-- An option is no separator. -/
theorem Means.ne_separator (means : Means next letters own tail takesNext)
    (dashed : letters? argument = some letters)
    : argument ≠ "--" := by
  rintro rfl
  cases dashed
  cases means with
  | switches same | awaits same | given same => cases same
  | strange same _ single => cases same; exact single rfl

/-- An option whose letters all make sense is no operand. -/
theorem Means.not_isOperand (means : Means next letters own none takesNext)
    (dashed : letters? argument = some letters)
    : ¬IsOperand argument := by
  intro operand
  obtain ⟨_, senseless⟩ := operand letters dashed
  cases means with
  | switches same | awaits same | given same => cases same.symm.trans senseless

end Options

end StackText.CommandLine
