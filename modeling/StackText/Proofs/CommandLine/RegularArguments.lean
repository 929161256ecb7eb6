import StackText.Proofs.CommandLine.FoundSources

/-! Command lines in a regular form: one item after another, each written as one or two arguments,
and perhaps a separator with further arguments behind it. The code to run is what the items name, in
their order, and then a file for each further argument.
-/

namespace StackText.CommandLine

-----------------------------------------------------------------------------------------
-- Items and how they are written
-----------------------------------------------------------------------------------------

/-- An item of a regular command line. -/
inductive Item where
  /-- A script file. Its name has no dash in front, or is a dash. -/
  | file (name : String) (plain : name.toList.head? ≠ some '-' ∨ name = "-")
  /-- One switch and perhaps more. -/
  | switches (more : Nat)
  /-- An argument that starts with two dashes and goes on. -/
  | long (c : Char) (rest : List Char)
  /-- Switches and a letter for code or for a buffer, with its text in the next argument. -/
  | apart (count : Nat) (isCode : Bool) (text : String)
  /-- Switches and a letter for code or for a buffer, with its text right behind. -/
  | attached (count : Nat) (isCode : Bool) (c : Char) (rest : List Char)

namespace Item

/-- The letters of an argument: switches, then a letter for code or for a buffer, then text. -/
def cluster (count : Nat) (isCode : Bool) (text : List Char) : List Char :=
  List.replicate count 'i' ++ (if isCode then 'c' else 'f') :: text

/-- The arguments that an item is written as. -/
def arguments : Item → List String
  | .file name _ => [name]
  | .switches more => [String.ofList ('-' :: List.replicate (more + 1) 'i')]
  | .long c rest => [String.ofList ('-' :: '-' :: c :: rest)]
  | .apart count isCode text => [String.ofList ('-' :: cluster count isCode []), text]
  | .attached count isCode c rest => [String.ofList ('-' :: cluster count isCode (c :: rest))]

/-- The code that an item names, if it does. -/
def source? : Item → Option Source
  | .file name _ => some (.file name)
  | .apart _ true text => some (.code text)
  | .attached _ true c rest => some (.code (String.ofList (c :: rest)))
  | .switches _ | .long _ _ | .apart _ false _ | .attached _ false _ _ => none

end Item

/-- A command line in regular form. -/
structure RegularLine where
  items : List Item
  /-- The arguments behind a separator, if there is one. -/
  further : Option (List String)

/-- The arguments of a command line. -/
def RegularLine.arguments (line : RegularLine) : List String :=
  line.items.flatMap Item.arguments ++ (line.further.map ("--" :: ·)).getD []

-----------------------------------------------------------------------------------------
-- What is found in an item
-----------------------------------------------------------------------------------------

/-- Switches do not change the word that the letters behind them make. -/
theorem word_replicate_append (count : Nat) (letters : List Char)
    : word (List.replicate count 'i' ++ letters) = word letters := by
  induction count with
  | zero => rfl
  | succ count ih => exact ih

theorem word_cluster_nil (count : Nat) (isCode : Bool)
    : word (Item.cluster count isCode []) = .awaits isCode := by
  rw [Item.cluster, word_replicate_append]
  cases isCode <;> rfl

theorem word_cluster_cons (count : Nat) (isCode : Bool) (c : Char) (rest : List Char)
    : word (Item.cluster count isCode (c :: rest)) = .given isCode (c :: rest) := by
  rw [Item.cluster, word_replicate_append]
  cases isCode <;> rfl

theorem letters?_dashed {letters : List Char} (nonempty : letters ≠ [])
    : letters? (String.ofList ('-' :: letters)) = some letters := by
  obtain ⟨c, rest, rfl⟩ := List.exists_cons_of_ne_nil nonempty
  exact letters?_ofList c rest

theorem letters?_plain {name : String} (plain : name.toList.head? ≠ some '-' ∨ name = "-")
    : letters? name = none := by
  refine letters?_of_bare fun c rest same => ?_
  rcases plain with other | rfl
  · exact other (by rw [same]; rfl)
  · cases same

/-- An item is read as a whole, whatever follows it: what it names is found, and the reader stands
in front of the next item again. In an argument of letters the text of an option is not looked at,
and in the next argument it is taken as it is.
-/
theorem sourcesFrom_item (item : Item) (rest : List String)
    : sourcesFrom none (item.arguments ++ rest)
      = item.source?.toList ++ sourcesFrom none rest := by
  cases item with
  | file name plain => exact sourcesFrom_bare (letters?_plain plain) rest
  | switches more =>
      have nonempty : List.replicate (more + 1) 'i' ≠ [] := by simp
      have found := sourcesFrom_of_word (letters?_dashed nonempty) rest
      have only : word (List.replicate (more + 1) 'i') = .switches := by
        simpa [word] using word_replicate_append (more + 1) []
      rw [only] at found
      exact found
  | long c more =>
      refine sourcesFrom_long (letters?_ofList '-' (c :: more)) ?_ rest
      intro same
      cases String.ofList_injective (same.trans (String.ofList_toList (s := "--")).symm)
  | apart count isCode text =>
      have nonempty : Item.cluster count isCode [] ≠ [] := by simp [Item.cluster]
      have found := sourcesFrom_of_word (letters?_dashed nonempty) (text :: rest)
      rw [word_cluster_nil] at found
      cases isCode with
      | true | false => exact found
  | attached count isCode c more =>
      have nonempty : Item.cluster count isCode (c :: more) ≠ [] := by simp [Item.cluster]
      have found := sourcesFrom_of_word (letters?_dashed nonempty) rest
      rw [word_cluster_cons] at found
      cases isCode with
      | true | false => exact found

/-- Items are read one after another, by induction on them. -/
theorem sourcesFrom_items (items : List Item) (rest : List String)
    : sourcesFrom none (items.flatMap Item.arguments ++ rest)
      = items.filterMap Item.source? ++ sourcesFrom none rest := by
  induction items with
  | nil => rfl
  | cons item items ih =>
      rw [List.flatMap_cons, List.append_assoc, sourcesFrom_item, ih]
      cases named : item.source? <;> simp [named]

/-- The code to run on a regular command line is what its items name, in their order, and then a
file for each argument behind the separator.
-/
theorem sources_of_regularLine (line : RegularLine)
    : sources line.arguments
      = line.items.filterMap Item.source? ++ (line.further.getD []).map .file := by
  obtain ⟨items, further⟩ := line
  rw [sources, RegularLine.arguments, sourcesFrom_items]
  cases further with
  | none => rfl
  | some names => exact congrArg _ (sourcesFrom_separator names)

/-- Code that looks like a separator or holds option letters, and a file that is a dash. -/
example
    : let line : RegularLine := {
        items := [
          .apart 1 true "--", .file "-" (.inr rfl), .attached 0 true 'f' ['c'], .apart 0 false "-c",
          .long 'x' [], .apart 0 true ""]
        further := some ["-c", "--"]
      }
      line.arguments = ["-ic", "--", "-", "-cfc", "-f", "-c", "--x", "-c", "", "--", "-c", "--"]
      ∧ sources line.arguments
        = [.code "--", .file "-", .code "fc", .code "", .file "-c", .file "--"] := by
  constructor <;> rfl

end StackText.CommandLine
