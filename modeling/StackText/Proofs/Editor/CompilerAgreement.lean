import StackText.Proofs.Editor.IndexedTokens
import StackText.Proofs.Reader.CleanEnd
import StackText.Proofs.Reader.FlatCode
import StackText.Proofs.Reader.Verdict

/-! The index of a text agrees with the compiler. The index goes on where the compiler stops, yet
what it counts tells what the compiler says; and of a text that compiles it has the names that the
code mentions.
-/

namespace StackText

namespace Index

open Token

/-- An index has recorded all tokens of its text, and holds the verdict on it. -/
theorem records_of_ofText {text : List Char} {index : Index} (indexed : ofText text = .ok index)
    : index.Records (sequence text) ∧ verdict text = .ok index.problem := by
  rw [ofText] at indexed
  split at indexed
  · next recorded added =>
      cases judged : verdict text with
      | error fault => rw [judged] at indexed; cases indexed
      | ok problem =>
          rw [judged] at indexed
          cases indexed
          have records := records_empty.addTokens added
          rw [List.nil_append] at records
          obtain ⟨⟨covered, depth⟩, ⟨references, definitions⟩, openString, readable⟩ := records
          exact ⟨⟨⟨covered, depth⟩, ⟨references, definitions⟩, openString, readable⟩, rfl⟩
  · cases indexed

/-- (index.Foretells text result) lists what the compiler says of a text at its end, told from the
index: a stray bracket comes first, then an open string, then open blocks.
-/
inductive Foretells (index : Index) (text : List Char) : Except ReadFault Chunk → Prop
  | stray (stray : index.strayCloses ≠ #[])
    : Foretells index text (.error (.malformed .strayClose))
  | string {held} (covered : index.strayCloses = #[]) (ends : index.openString ≠ none)
    (member : .unterminated held ∈ sequence text)
    : Foretells index text (.error (.malformed (.unfinished (Reader.unfinishedString held))))
  | blocks (covered : index.strayCloses = #[]) (ends : index.openString = none)
    (inside : index.openBlocks ≠ 0)
    : Foretells index text (.error (.malformed (.unfinished (.blocks index.openBlocks))))
  | code {chunk} (covered : index.strayCloses = #[]) (ends : index.openString = none)
    (outside : index.openBlocks = 0)
    : Foretells index text (.ok chunk)

/-- The index foretells what the compiler says over any store, unless an id does not fit, by cases
on what stops compiling.
-/
theorem Records.foretells {text : List Char} {index : Index}
    (records : index.Records (sequence text)) {store : Store}
    (fits : ∀ fault, (Reader.fresh.compile store text true).result ≠ .error (.code fault))
    : index.Foretells text (Reader.fresh.compile store text true).result := by
  have whole : Reader.fresh.compile store text true
      = Reader.conclude true text (Draft.tokens ⟨store, [], {}⟩ (sequence text)) :=
    Reader.compile_eq Reader.fresh store text true
  rw [whole] at fits ⊢
  cases read : Draft.tokens ⟨store, [], {}⟩ (sequence text) with
  | mk draft stoppage =>
      rw [read] at fits
      cases stoppage with
      | none =>
          have compiles := Draft.compilesAll_of_tokens read
          have covered : index.strayCloses = #[] := by
            refine records.balances.covered.mpr ?_
            intro front isFront
            have bound := Draft.covered_of_tokens read isFront
            simpa using bound
          have ends : index.openString = none := by
            refine Classical.byContradiction fun opened => ?_
            obtain ⟨held, member⟩ := records.openString.mp opened
            exact compiles.terminated held member
          have depth : draft.outer.length = index.openBlocks := by
            have brackets := compiles.depth
            have blocks := records.balances.depth covered
            simp only [List.length_nil] at brackets
            omega
          rw [Reader.conclude]
          split
          · next closed =>
              rw [List.isEmpty_iff_length_eq_zero] at closed
              exact .code covered ends (by omega)
          · next inside =>
              rw [List.isEmpty_iff_length_eq_zero] at inside
              rw [depth]
              exact .blocks covered ends (by omega)
      | some stoppage =>
          obtain ⟨front, token, back, before, split, passed, stopped⟩ := Draft.tokens_stoppage read
          have compiles := Draft.compilesAll_of_tokens passed
          rcases Draft.token_stoppage stopped with
            ⟨rfl, outside, rfl⟩ | ⟨held, rfl, rfl⟩ | ⟨letters, fault, rfl, unread, rfl⟩
            | ⟨fault, rfl⟩
          · refine .stray fun covered => ?_
            have bound := records.balances.covered.mp covered (front ++ [.closeBlock])
              ⟨back, by simp [split]⟩
            have depth := compiles.depth
            rw [outside] at depth
            simp only [List.count_append, List.length_nil] at bound depth
            simp at bound
            omega
          · -- The open string is the last token, so all brackets come before it.
            obtain rfl := eq_nil_of_unterminated split
            have member : .unterminated held ∈ sequence text := by simp [split]
            refine .string (records.balances.covered.mpr ?_) (records.openString.mpr ⟨_, member⟩)
              member
            intro part isPart
            rw [split] at isPart
            rcases List.prefix_concat_iff.mp isPart with rfl | shorter
            · have bound := Draft.covered_of_tokens passed List.prefix_rfl
              simpa using bound
            · have bound := Draft.covered_of_tokens passed shorter
              simpa using bound
          · obtain ⟨term, meaning⟩ := records.readable letters (by simp [split])
            cases unread.symm.trans meaning
          · exact absurd rfl (fits fault)

/-- The wording of the verdict on an indexed text. -/
theorem foretells_verdict {text : List Char} {index : Index} (indexed : ofText text = .ok index)
    : ∃ result,
        (Reader.fresh.compile .empty text true).result = result
        ∧ index.Foretells text result
        ∧ index.problem
          = match result with
            | .ok _ => none
            | .error fault => some fault.message := by
  obtain ⟨records, judged⟩ := records_of_ofText indexed
  have fits : ∀ fault, (Reader.fresh.compile .empty text true).result ≠ .error (.code fault) := by
    intro fault failed
    rw [verdict, failed] at judged
    cases judged
  have foretells := records.foretells fits
  refine ⟨_, rfl, foretells, ?_⟩
  rw [verdict] at judged
  generalize (Reader.fresh.compile .empty text true).result = result at judged foretells ⊢
  cases foretells <;> exact (Except.ok.inj judged).symm

/-- The index agrees with the compiler. For every text that has an index there is no problem exactly
if no bracket is stray, no block is open and no string is open. Otherwise the problem is a stray
bracket, if there is one, else the string that is open, else the number of open blocks. A text
without a problem compiles; over any store the compiled code, with its blocks written out, loads and
applies by name just the references of the index in their order, and assigns to just its definitions
in the order of their first assignments, and nothing is applied or assigned to without a name.
Witness: both pass the same tokens, and what the compiler stops at is told from the tokens before.
-/
theorem agrees_with_compiler {text : List Char} {index : Index} (indexed : ofText text = .ok index)
    : (index.problem = none
        ↔ index.strayCloses = #[] ∧ index.openBlocks = 0 ∧ index.openString = none)
      ∧ (index.strayCloses ≠ #[] → index.problem = some "Unexpected ')'")
      ∧ (index.strayCloses = #[]
          → index.openString ≠ none
          → ∃ quote rest,
              .unterminated (quote :: rest) ∈ sequence text
              ∧ quote :: rest <:+ text
              ∧ isQuote quote = true
              ∧ Fenced.read? (quote :: rest) = none
              ∧ index.problem
                = some ("Unterminated string literal opened with "
                    ++ String.ofList (List.replicate (Fenced.openingRun (quote :: rest)) quote)))
      ∧ (index.strayCloses = #[]
          → index.openString = none
          → index.openBlocks ≠ 0
          → index.problem = some s!"Unmatched '(' ({index.openBlocks} block(s) left open)")
      ∧ (index.problem = none
          → (∃ chunk, (Reader.fresh.compile .empty text true).result = .ok chunk)
            ∧ ∀ (store : Store) (chunk : Chunk),
                store.WellFormed
                → (Reader.fresh.compile store text true).result = .ok chunk
                → let compiled := (Reader.fresh.compile store text true).store
                  ∃ flat,
                    chunk.flat? compiled = some flat
                    ∧ Mention.uses (Instruction.mentions compiled flat)
                      = index.references.toList.map (fun r => (r.name, r.isCall))
                    ∧ Mention.assignedNames (Instruction.mentions compiled flat)
                      = index.definitions.toList.map Definition.name
                    ∧ ∀ i ∈ flat, i.Named compiled) := by
  obtain ⟨records, _⟩ := records_of_ofText indexed
  obtain ⟨result, compiled, foretells, problem⟩ := foretells_verdict indexed
  refine ⟨?_, ?_, ?_, ?_, ?_⟩
  · cases foretells <;> simp_all
  · intro stray
    cases foretells with
    | stray _ => exact problem
    | string covered | blocks covered | code covered => exact absurd covered stray
  · intro covered opened
    cases foretells with
    | stray stray => exact absurd covered stray
    | blocks _ ends | code _ ends => exact absurd ends opened
    | @string held _ _ member =>
        obtain ⟨quote, rest, rfl, isQuote, unread⟩ := read?_of_unterminated member
        exact ⟨quote, rest, member, suffix_of_unterminated member, isQuote, unread, problem⟩
  · intro covered ends inside
    cases foretells with
    | stray stray => exact absurd covered stray
    | string _ opened => exact absurd ends opened
    | code _ _ outside => exact absurd outside inside
    | blocks => exact problem
  · intro none
    cases foretells with
    | stray | string | blocks => cases problem.symm.trans none
    | @code chunk =>
        refine ⟨⟨chunk, compiled⟩, ?_⟩
        intro store chunk formed ok
        obtain ⟨flat, written, mentions, named⟩ := Reader.flat?_of_compile formed ok
        refine ⟨flat, written, ?_, ?_, named⟩
        · rw [mentions, records.lists.references]
        · rw [mentions, records.lists.definitions]

/-- A function that calls itself, behind it a number, and a name that is assigned to twice. -/
theorem agrees_on_reassigned_function
    : let text := "( f $a ) $=f f 3 $=n $=f".toList
      let compiled := Reader.fresh.compile .empty text true
      ∃ index chunk flat,
        ofText text = .ok index
        ∧ index.problem = none
        ∧ compiled.result = .ok chunk
        ∧ chunk.flat? compiled.store = some flat
        ∧ Mention.uses (Instruction.mentions compiled.store flat)
          = [("f", true), ("a", false), ("f", true)]
        ∧ Mention.assignedNames (Instruction.mentions compiled.store flat) = ["f", "n"] := by
  have facts : (ofText "( f $a ) $=f f 3 $=n $=f".toList).toOption.map (fun index =>
        (index.problem, index.references.toList.map (fun r => (r.name, r.isCall)),
          index.definitions.toList.map Definition.name))
      = some (none, [("f", true), ("a", false), ("f", true)], ["f", "n"]) := by
    cbv
  intro text compiled
  change (ofText text).toOption.map _ = _ at facts
  cases indexed : ofText text with
  | error fault => rw [indexed] at facts; cases facts
  | ok index =>
      rw [indexed] at facts
      obtain ⟨problem, references, definitions⟩ : _ ∧ _ ∧ _ := by simpa using Option.some.inj facts
      obtain ⟨_, _, _, _, code⟩ := agrees_with_compiler indexed
      obtain ⟨⟨chunk, ok⟩, names⟩ := code problem
      obtain ⟨flat, written, uses, assigned, _⟩ := names .empty chunk Store.wellFormed_empty ok
      exact ⟨index, chunk, flat, rfl, problem, ok, written, uses.trans references,
        assigned.trans definitions⟩

end Index

end StackText
