import StackText.Editor.Index
import StackText.Proofs.Reader.DraftSteps
import StackText.Proofs.Reader.TokenTree

/-! What the index of a text records of its tokens: every use of a name, the names that are assigned
to, the balance of the brackets, and a string that does not end.
-/

namespace StackText

-----------------------------------------------------------------------------------------
-- Mentions of names
-----------------------------------------------------------------------------------------

namespace Mention

/-- A mention that uses the name, with whether it calls it. -/
def use? : Opcode × String → Option (String × Bool)
  | (.load, name) => some (name, false)
  | (.apply, name) => some (name, true)
  | (.assign, _) => none

/-- The name that a mention assigns to. -/
def assigned? : Opcode × String → Option String
  | (.assign, name) => some name
  | _ => none

/-- The names that mentions use, in order, each with whether it is called. -/
def uses (mentions : List (Opcode × String)) : List (String × Bool) := mentions.filterMap use?

/-- The names that mentions assign to, in the order of their first assignments. -/
def assignedNames (mentions : List (Opcode × String)) : List String :=
  (mentions.filterMap assigned?).eraseDups

theorem mem_uses_call {mentions : List (Opcode × String)} {name : String}
    : (name, true) ∈ uses mentions ↔ (.apply, name) ∈ mentions := by
  rw [uses, List.mem_filterMap]
  constructor
  · rintro ⟨⟨op, other⟩, member, same⟩
    cases op <;> cases same
    exact member
  · intro member
    exact ⟨_, member, rfl⟩

theorem mem_assignedNames {mentions : List (Opcode × String)} {name : String}
    : name ∈ assignedNames mentions ↔ (.assign, name) ∈ mentions := by
  rw [assignedNames, List.mem_eraseDups, List.mem_filterMap]
  constructor
  · rintro ⟨⟨op, other⟩, member, same⟩
    cases op <;> cases same
    exact member
  · intro member
    exact ⟨_, member, rfl⟩

/-- A further assignment counts if the name is new. -/
theorem assignedNames_concat_assign (mentions : List (Opcode × String)) (name : String)
    : assignedNames (mentions ++ [(.assign, name)])
      = if name ∈ assignedNames mentions then assignedNames mentions
        else assignedNames mentions ++ [name] := by
  simp only [assignedNames, List.filterMap_append, List.mem_eraseDups, List.eraseDups_append,
    List.filterMap_cons, assigned?, List.filterMap_nil, List.removeAll]
  split
  · next known => simp [known]
  · next new => simp [new, List.eraseDups_cons]

theorem assignedNames_concat {mentions : List (Opcode × String)} {mention : Opcode × String}
    (other : assigned? mention = none)
    : assignedNames (mentions ++ [mention]) = assignedNames mentions := by
  simp [assignedNames, other]

end Mention

-----------------------------------------------------------------------------------------
-- Brackets
-----------------------------------------------------------------------------------------

/-- (Covered tokens) holds if no closing bracket comes before its opening one. -/
def Token.Covered (tokens : List Token) : Prop :=
  ∀ front, front <+: tokens → front.count .closeBlock ≤ front.count .openBlock

theorem Token.covered_concat {tokens : List Token} {token : Token}
    : Covered (tokens ++ [token])
      ↔ Covered tokens
        ∧ (tokens ++ [token]).count .closeBlock ≤ (tokens ++ [token]).count .openBlock := by
  constructor
  · intro covered
    refine ⟨?_, covered _ List.prefix_rfl⟩
    intro front isFront
    exact covered front (isFront.trans (List.prefix_append tokens [token]))
  · rintro ⟨covered, whole⟩ front isFront
    rcases List.prefix_concat_iff.mp isFront with rfl | shorter
    · exact whole
    · exact covered front shorter

namespace Index

/-- (index.Balances tokens) holds if the index has a stray bracket exactly if one comes before its
opening one, and until then the number of open blocks.
-/
structure Balances (index : Index) (tokens : List Token) : Prop where
  covered : index.strayCloses = #[] ↔ Token.Covered tokens
  depth
    : index.strayCloses = #[]
      → index.openBlocks + tokens.count .closeBlock = tokens.count .openBlock

variable {index next : Index} {tokens : List Token}

theorem Balances.openBlock (balances : index.Balances tokens)
    : Balances { index with openBlocks := index.openBlocks + 1 } (tokens ++ [.openBlock]) := by
  have closes : (tokens ++ [Token.openBlock]).count .closeBlock = tokens.count .closeBlock := by
    simp
  have opens : (tokens ++ [Token.openBlock]).count .openBlock = tokens.count .openBlock + 1 := by
    simp
  refine ⟨?_, ?_⟩
  · rw [Token.covered_concat, balances.covered, closes, opens]
    refine ⟨fun covered => ⟨covered, ?_⟩, And.left⟩
    have bound := covered tokens List.prefix_rfl
    omega
  · intro none
    have depth : index.openBlocks + _ = _ := balances.depth none
    simp only [closes, opens]
    omega

/-- A closing bracket is stray if no block is open, and closes one otherwise. -/
theorem Balances.closeBlock (balances : index.Balances tokens) {position : Position}
    {afterBlock : Bool} (added : index.addToken position afterBlock .closeBlock = .ok next)
    : next.Balances (tokens ++ [.closeBlock]) := by
  have closes : (tokens ++ [Token.closeBlock]).count .closeBlock
      = tokens.count .closeBlock + 1 := by
    simp
  have opens : (tokens ++ [Token.closeBlock]).count .openBlock = tokens.count .openBlock := by simp
  rw [addToken] at added
  split at added
  · next outside =>
      cases added
      refine ⟨?_, by simp⟩
      rw [Token.covered_concat, closes, opens, ← balances.covered]
      refine ⟨by simp, ?_⟩
      rintro ⟨none, bound⟩
      have depth := balances.depth none
      omega
  · next inside =>
      cases added
      refine ⟨?_, ?_⟩
      · rw [Token.covered_concat, closes, opens, ← balances.covered]
        refine ⟨fun none => ⟨none, ?_⟩, And.left⟩
        have depth : index.openBlocks + _ = _ := balances.depth none
        omega
      · intro none
        have depth : index.openBlocks + _ = _ := balances.depth none
        simp only [closes, opens]
        omega

/-- A token that is no bracket changes no balance. -/
theorem Balances.other (balances : index.Balances tokens) {token : Token}
    (notOpen : token ≠ .openBlock) (notClose : token ≠ .closeBlock)
    (strays : next.strayCloses = index.strayCloses) (blocks : next.openBlocks = index.openBlocks)
    : next.Balances (tokens ++ [token]) := by
  have closes : (tokens ++ [token]).count .closeBlock = tokens.count .closeBlock := by
    simp [notClose]
  have opens : (tokens ++ [token]).count .openBlock = tokens.count .openBlock := by
    simp [notOpen]
  refine ⟨?_, ?_⟩
  · rw [Token.covered_concat, strays, balances.covered, closes, opens]
    exact ⟨fun covered => ⟨covered, covered tokens List.prefix_rfl⟩, And.left⟩
  · rw [strays, blocks, closes, opens]
    exact balances.depth

-----------------------------------------------------------------------------------------
-- Names
-----------------------------------------------------------------------------------------

/-- (index.Lists mentions) holds if the index refers to the names that are used and defines those
that are assigned to.
-/
structure Lists (index : Index) (mentions : List (Opcode × String)) : Prop where
  references
    : index.references.toList.map (fun r => (r.name, r.isCall)) = Mention.uses mentions
  definitions : index.definitions.toList.map Definition.name = Mention.assignedNames mentions

theorem isSome_definition? {name : String}
    : (index.definition? name).isSome ↔ name ∈ index.definitions.toList.map Definition.name := by
  simp [definition?, Array.find?_isSome]

/-- What a word means is listed, and a definition only if it is the first of its name. -/
theorem Lists.addTerm {mentions : List (Opcode × String)} (lists : index.Lists mentions)
    (position : Position) (afterBlock : Bool) (term : Term)
    : (index.addTerm position afterBlock term).Lists (mentions ++ term.reference?.toList) := by
  obtain ⟨references, definitions⟩ := lists
  cases term with
  | number n => simpa [Index.addTerm, Term.reference?] using ⟨references, definitions⟩
  | load name | call name =>
      refine ⟨?_, ?_⟩
      · simp only [Index.addTerm, Array.toList_push, List.map_append, references]
        simp [Term.reference?, Mention.uses, Mention.use?]
      · exact definitions.trans (Mention.assignedNames_concat rfl).symm
  | assign name =>
      have known : (index.definition? name).isSome ↔ name ∈ Mention.assignedNames mentions := by
        rw [isSome_definition?, definitions]
      refine ⟨?_, ?_⟩
      · rw [Index.addTerm]
        split <;>
          simpa [Term.reference?, Mention.uses, Mention.use?, List.filterMap_cons] using references
      · rw [Index.addTerm, Term.reference?, Option.toList_some, Mention.assignedNames_concat_assign]
        split
        · next old => rw [if_pos (known.mp old), definitions]
        · next new =>
            rw [if_neg (mt known.mpr new), ← definitions]
            simp

-----------------------------------------------------------------------------------------
-- All tokens
-----------------------------------------------------------------------------------------

/-- (index.Records tokens) holds if the index is that of tokens which can all be read, with the open
string, if there is one.
-/
structure Records (index : Index) (tokens : List Token) : Prop where
  balances : index.Balances tokens
  lists : index.Lists (Token.mentions tokens)
  openString : index.openString ≠ none ↔ ∃ held, .unterminated held ∈ tokens
  readable : ∀ letters, .word letters ∈ tokens → ∃ term, Term.ofWord letters = .ok term

theorem records_empty
    : Records {} [] where
  balances := ⟨by simp [Token.Covered], fun _ => rfl⟩
  lists := ⟨rfl, rfl⟩
  openString := by simp
  readable := by simp

/-- What a word means changes neither the blocks nor the open string. -/
theorem addTerm_kept (index : Index) (position : Position) (afterBlock : Bool) (term : Term)
    : (index.addTerm position afterBlock term).strayCloses = index.strayCloses
      ∧ (index.addTerm position afterBlock term).openBlocks = index.openBlocks
      ∧ (index.addTerm position afterBlock term).openString = index.openString := by
  cases term with
  | assign name =>
      rw [addTerm]
      split <;> exact ⟨rfl, rfl, rfl⟩
  | _ => exact ⟨rfl, rfl, rfl⟩

/-- A token that is entered is recorded behind those before it. -/
theorem Records.addToken (records : index.Records tokens) {position : Position}
    {afterBlock : Bool} {token : Token}
    (added : index.addToken position afterBlock token = .ok next)
    : next.Records (tokens ++ [token]) := by
  obtain ⟨balances, lists, openString, readable⟩ := records
  -- Brackets and strings mention no name.
  have listed : token.mention? = none → index.Lists (Token.mentions (tokens ++ [token])) := by
    intro none
    rw [Token.mentions_concat, none]
    simpa using lists
  cases token with
  | openBlock =>
      cases added
      have names := listed rfl
      exact ⟨balances.openBlock, ⟨names.references, names.definitions⟩, by simpa using openString,
        by simpa using readable⟩
  | closeBlock =>
      have names := listed rfl
      refine ⟨balances.closeBlock added, ?_, ?_, by simpa using readable⟩ <;>
        (rw [Index.addToken] at added; split at added <;> cases added)
      · exact ⟨names.references, names.definitions⟩
      · exact ⟨names.references, names.definitions⟩
      · simpa using openString
      · simpa using openString
  | string text =>
      cases added
      exact ⟨balances.other (by simp) (by simp) rfl rfl, listed rfl, by simpa using openString,
        by simpa using readable⟩
  | word letters =>
      rw [Index.addToken] at added
      cases meaning : Term.ofWord letters with
      | error fault => rw [meaning] at added; cases added
      | ok term =>
          rw [meaning] at added
          cases added
          obtain ⟨strayCloses, openBlocks, sameString⟩ :=
            index.addTerm_kept position afterBlock term
          refine ⟨balances.other (by simp) (by simp) strayCloses openBlocks, ?_, ?_, ?_⟩
          · have mention : Token.mention? (.word letters) = term.reference? := by
              simp [Token.mention?, meaning, Except.toOption]
            rw [Token.mentions_concat, mention]
            exact lists.addTerm position afterBlock term
          · simpa [sameString] using openString
          · intro other member
            rcases List.mem_append.mp member with before | here
            · exact readable other before
            · cases List.mem_singleton.mp here
              exact ⟨term, meaning⟩
  | unterminated held =>
      cases added
      have names := listed rfl
      exact ⟨balances.other (by simp) (by simp) rfl rfl, ⟨names.references, names.definitions⟩,
        by simp, by simpa using readable⟩

/-- Tokens that are entered in order are all recorded, by induction on them. -/
theorem Records.addTokens {index last : Index} (records : index.Records tokens) {walk : Walk}
    {afterBlock : Bool} {lexemes : List Lexeme}
    (added : index.addTokens walk afterBlock lexemes = .ok last)
    : last.Records (tokens ++ lexemes.map Lexeme.token) := by
  induction lexemes generalizing index tokens walk afterBlock with
  | nil => cases added; simpa using records
  | cons lexeme lexemes ih =>
      rw [Index.addTokens] at added
      split at added
      · next next here => simpa using ih (records.addToken here) added
      · cases added

end Index

end StackText
