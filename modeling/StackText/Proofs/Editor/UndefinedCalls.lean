import StackText.Proofs.Editor.CompilerAgreement
import StackText.Proofs.Reader.AppendedSlots
import StackText.Proofs.Reader.MentionedNames
import StackText.Proofs.Reader.SparedIds
import StackText.Proofs.Session.Evaluation
import StackText.Proofs.Session.FailedRun

/-! The calls that the index of a text calls undefined are those that cannot succeed. A name that
the text never assigns to keeps the value it starts with: a builtin, or nil.
-/

namespace StackText

-----------------------------------------------------------------------------------------
-- The index of a text that compiles
-----------------------------------------------------------------------------------------

namespace Index

open Token

/-- Tokens that can all be read can be entered, by induction on them. -/
theorem exists_addTokens {lexemes : List Lexeme}
    (readable
      : ∀ letters, .word letters ∈ lexemes.map Lexeme.token
          → ∃ term, Term.ofWord letters = .ok term)
    (index : Index) (walk : Walk) (afterBlock : Bool)
    : ∃ last, index.addTokens walk afterBlock lexemes = .ok last := by
  induction lexemes generalizing index walk afterBlock with
  | nil => exact ⟨index, rfl⟩
  | cons lexeme lexemes ih =>
      have here : ∀ position, ∃ next,
          index.addToken position afterBlock lexeme.token = .ok next := by
        intro position
        cases token : lexeme.token with
        | word letters =>
            obtain ⟨term, meaning⟩ := readable letters (by simp [token])
            exact ⟨_, by rw [addToken, meaning]; rfl⟩
        | closeBlock =>
            rw [addToken]
            split <;> exact ⟨_, rfl⟩
        | openBlock | string _ | unterminated _ => exact ⟨_, rfl⟩
      obtain ⟨next, added⟩ := here (walk.advance (lexeme.start - walk.offset)).position
      rw [addTokens, added]
      exact ih (fun letters member => readable letters (List.mem_cons_of_mem _ member)) next _ _

/-- A text that compiles has an index. -/
theorem exists_ofText {text : List Char} {chunk : Chunk}
    (compiled : (Reader.fresh.compile .empty text true).result = .ok chunk)
    : ∃ index, ofText text = .ok index := by
  obtain ⟨nodes, spells, _⟩ := Reader.nodes?_of_compile Store.wellFormed_empty compiled
  obtain ⟨last, added⟩ :=
    @exists_addTokens (Token.scan text) (fun _ member => spells.meaning member) {}
      { ahead := text } false
  exact ⟨{ last with problem := none }, by simp [ofText, added, verdict, compiled, Except.map]⟩

/-- (index.CallsUndefined name) holds if the index lists a call of the name as undefined. -/
def CallsUndefined (index : Index) (name : String) : Prop :=
  ∃ call ∈ index.undefinedCalls, call.name = name

variable {index : Index} {mentions : List (Opcode × String)} {name : String}

theorem Lists.isSome_definition?_iff (lists : index.Lists mentions)
    : (index.definition? name).isSome ↔ (.assign, name) ∈ mentions := by
  rw [isSome_definition?, lists.definitions, Mention.mem_assignedNames]

/-- The words that have a stack effect are the builtins, in their order. -/
theorem words_signatures
    : signatures.map Prod.fst = Builtin.all.map Builtin.word :=
  rfl

theorem signature?_eq_none_iff
    : signature? name = none ↔ ∀ b : Builtin, b.word ≠ name := by
  have words : (∀ word ∈ signatures.map Prod.fst, name ≠ word) ↔ ∀ b : Builtin, b.word ≠ name := by
    rw [words_signatures, List.forall_mem_map]
    exact ⟨fun other b => (other b b.mem_all).symm, fun other b _ => (other b).symm⟩
  rw [← words, signature?, List.lookup_eq_none_iff, List.forall_mem_map]
  simp

/-- A call is undefined if the name is called, never assigned to, and no builtin has it. -/
theorem Lists.callsUndefined_iff (lists : index.Lists mentions)
    : index.CallsUndefined name
      ↔ (.apply, name) ∈ mentions
        ∧ (.assign, name) ∉ mentions
        ∧ ∀ b : Builtin, b.word ≠ name := by
  have called : (.apply, name) ∈ mentions
      ↔ ∃ r ∈ index.references.toList, r.name = name ∧ r.isCall = true := by
    rw [← Mention.mem_uses_call, ← lists.references, List.mem_map]
    simp
  rw [called, ← lists.isSome_definition?_iff, ← signature?_eq_none_iff]
  simp only [CallsUndefined, undefinedCalls, List.mem_filter, Bool.and_eq_true,
    Option.isNone_iff_eq_none, Option.not_isSome_iff_eq_none]
  constructor
  · rintro ⟨r, ⟨member, ⟨isCall, new⟩, noBuiltin⟩, rfl⟩
    exact ⟨⟨r, member, rfl, isCall⟩, new, noBuiltin⟩
  · rintro ⟨⟨r, member, rfl, isCall⟩, new, noBuiltin⟩
    exact ⟨r, ⟨member, ⟨isCall, new⟩, noBuiltin⟩, rfl⟩

end Index

-----------------------------------------------------------------------------------------
-- The slots of names before a run
-----------------------------------------------------------------------------------------

namespace Store

theorem names_withBuiltins
    : withBuiltins.symbols.names = (Builtin.all.map fun b => some b.word).toArray := by
  rfl

theorem values_withBuiltins
    : withBuiltins.values = (Builtin.all.map Value.builtin).toArray := by
  cbv

/-- Behind the builtins, the slot of a name holds the builtin of that name, or nil if there is none.
-/
theorem Appends.slot_of_name {store : Store} (appends : withBuiltins.Appends store) {id : Nat}
    {name : String} (named : store.name? id = some name)
    : (∃ b : Builtin, b.word = name ∧ store.get? id = some (.builtin b))
      ∨ (∀ b : Builtin, b.word ≠ name) ∧ store.get? id = some .nil := by
  have slots : withBuiltins.values.size = withBuiltins.symbols.names.size :=
    withBuiltins.covered
  by_cases early : id < withBuiltins.values.size
  · have bound : id < Builtin.all.length := by simpa [values_withBuiltins] using early
    refine .inl ⟨Builtin.all[id], ?_, appends.grows.get? ?_⟩
    · rw [appends.grows.name? (Nat.lt_of_lt_of_eq early slots), name?_eq_some_iff,
        names_withBuiltins] at named
      simpa [List.getElem?_eq_getElem bound] using named
    · rw [get?, values_withBuiltins]
      simp [List.getElem?_eq_getElem bound]
  · have inside : id < store.values.size :=
      Nat.lt_of_lt_of_eq (SymbolTable.lt_size_of_name? named) store.covered.symm
    have found : store.get? id = some store.values[id] := Array.getElem?_eq_getElem inside
    rcases appends.further id _ (Nat.le_of_not_lt early) found with ⟨empty, _⟩ | ⟨_, unnamed⟩
    · refine .inr ⟨?_, empty ▸ found⟩
      -- A builtin of that name would have its slot among the first.
      intro b spelt
      obtain ⟨place, bound, rfl⟩ := List.getElem_of_mem b.mem_all
      have old : withBuiltins.symbols.id? name = some place := by
        refine (closed_withBuiltins.formed.inverse name place).mpr ?_
        rw [names_withBuiltins]
        simp [List.getElem?_eq_getElem bound, spelt]
      have here : store.symbols.id? name = some id :=
        (appends.formed.inverse name id).mpr (name?_eq_some_iff.mp named)
      cases here.symm.trans (appends.ids name place old)
      exact early (by simpa [values_withBuiltins] using bound)
    · cases unnamed.symm.trans named

end Store

-----------------------------------------------------------------------------------------
-- Names that are never assigned to
-----------------------------------------------------------------------------------------

/-- Only an application of a value that is neither a function nor a builtin is undefined. -/
theorem State.effect_notApplicable {s last : State} {i : Instruction} {name : String}
    {type : ValueType} (effect : s.effect i = .stop (.fault (.notApplicable name type)) last)
    : i.op = .apply
      ∧ name = s.slotName i.id
      ∧ ∀ b, s.store.get? i.id ≠ some (.builtin b) := by
  obtain ⟨op, id⟩ := i
  cases op with
  | load =>
      simp only [State.effect] at effect
      split at effect <;> cases effect
  | assign =>
      simp only [State.effect] at effect
      split at effect
      · cases effect
      · split at effect <;> cases effect
  | apply =>
      simp only [State.effect] at effect
      split at effect
      · cases effect
      · rw [State.perform] at effect
        split at effect
        · cases effect
        · next failed => cases effect; cases Builtin.byBuiltin_run failed
      · next v _ other found =>
          cases effect
          refine ⟨rfl, rfl, ?_⟩
          intro b same
          exact other b (Option.some.inj (found.symm.trans same))
      · cases effect

namespace Machine

variable {mentions : List (Opcode × String)} {start m : Machine} {id : Nat} {name : String}

/-- A machine that is about to run compiled code: its store is that of a new session with slots
behind, and all its code mentions no other names than the text.
-/
structure Ready (mentions : List (Opcode × String)) (start : Machine) : Prop where
  appends : Store.withBuiltins.Appends start.store
  made : start.MadeOf (Instruction.Among start.store.symbols mentions)

/-- A name that is never assigned to keeps the value it starts with. -/
theorem Ready.slot_of_name (ready : start.Ready mentions) {steps : Nat}
    (reached : start.after steps = some m) (named : m.store.name? id = some name)
    (never : (.assign, name) ∉ mentions)
    : (∃ b : Builtin, b.word = name ∧ m.store.get? id = some (.builtin b))
      ∨ (∀ b : Builtin, b.word ≠ name) ∧ m.store.get? id = some .nil := by
  have named : start.store.name? id = some name := by
    rw [Store.name?, ← symbols_after reached]
    exact named
  have same := ready.made.get?_after
    (fun among : Instruction.Among _ _ ⟨.assign, id⟩ => never (among.mentioned name named)) reached
  rw [same]
  exact ready.appends.slot_of_name named

/-- The name of a slot whose instruction is carried out is mentioned with the opcode. -/
theorem Ready.mentioned (ready : start.Ready mentions) {steps : Nat}
    (reached : start.after steps = some m) {i : Instruction} (known : m.instruction? = some i)
    (named : m.store.name? i.id = some name)
    : (i.op, name) ∈ mentions := by
  have named : start.store.name? i.id = some name := by
    rw [Store.name?, ← symbols_after reached]
    exact named
  exact ((ready.made.after reached).instruction known).mentioned name named

/-- A call of a name that is neither assigned to nor builtin stops the run. -/
theorem Ready.step_of_undefined (ready : start.Ready mentions) {steps : Nat}
    (reached : start.after steps = some m) (known : m.instruction? = some ⟨.apply, id⟩)
    (named : m.store.name? id = some name) (never : (.assign, name) ∉ mentions)
    (noBuiltin : ∀ b : Builtin, b.word ≠ name)
    : ∃ last, m.step = .stopped (.fault (.notApplicable name .nil)) last := by
  have empty : m.store.get? id = some .nil := by
    rcases ready.slot_of_name reached named never with ⟨b, spelt, _⟩ | ⟨_, empty⟩
    · exact absurd spelt (noBuiltin b)
    · exact empty
  have effect : m.state.effect ⟨.apply, id⟩
      = .stop (.fault (.notApplicable name .nil)) m.state := by
    simp [State.effect, state, State.slotName, empty, named, Value.type]
  rw [instruction?, Option.map_eq_some_iff] at known
  obtain ⟨⟨_, left⟩, fetched, rfl⟩ := known
  rw [step_of_fetch? fetched]
  exact ⟨_, by rw [effect]; rfl⟩

/-- An application that is undefined at run time is one of a name that the text calls, and that it
assigns to unless no builtin has the name.
-/
theorem Ready.of_notApplicable (ready : start.Ready mentions) (closed : start.Closed) {steps : Nat}
    (reached : start.after steps = some m) {i : Instruction} (known : m.instruction? = some i)
    {type : ValueType} {last : Machine}
    (step : m.step = .stopped (.fault (.notApplicable name type)) last)
    : i.op = .apply
      ∧ m.store.name? i.id = some name
      ∧ (.apply, name) ∈ mentions
      ∧ ((.assign, name) ∉ mentions → ∀ b : Builtin, b.word ≠ name) := by
  have effect : ∃ last, m.state.effect i = .stop (.fault (.notApplicable name type)) last := by
    cases stepsTo_of_step step with
    | faulty blames => cases blames
    | stop same effect => cases known.symm.trans same; exact ⟨_, effect⟩
  obtain ⟨_, effect⟩ := effect
  obtain ⟨op, rfl, notBuiltin⟩ := State.effect_notApplicable effect
  obtain ⟨found, named⟩ := ((closed.after reached).closed.instruction known).named (by simp [op])
  have named : m.store.name? i.id = some found := Store.name?_eq_some_iff.mpr named
  have shown : m.state.slotName i.id = found := by simp [State.slotName, state, named]
  have mentioned := ready.mentioned reached known named
  rw [op] at mentioned
  refine ⟨op, shown ▸ named, shown ▸ mentioned, ?_⟩
  intro never
  rw [shown] at never ⊢
  rcases ready.slot_of_name reached named never with ⟨b, _, builtin⟩ | ⟨none, _⟩
  · exact absurd builtin (notBuiltin b)
  · exact none

end Machine

-----------------------------------------------------------------------------------------
-- Evaluating a text once
-----------------------------------------------------------------------------------------

namespace Session

variable {settings : Settings} {console : Console} {text : List Char} {chunk : Chunk}

/-- The code of a text that a new session has compiled is ready to run. -/
theorem ready_of_compile
    (compiled : ((Session.new settings console).compile text true).1 = .ok chunk)
    : Machine.Ready (Token.mentions (Token.sequence text))
        {
          ((Session.new settings console).compile text true).2.machine with
          frames := [chunk.toList]
        } := by
  have formed := Store.closed_withBuiltins.formed
  have ok : (Reader.fresh.compile .withBuiltins text true).result = .ok chunk := compiled
  obtain ⟨draft, compiles, _, rfl, kept⟩ := Reader.compilesAll_of_compile ok
  have within : draft.Within (Token.mentions (Token.sequence text)) := by
    refine compiles.within formed ⟨?_, by simp, Chunk.madeOf_empty _⟩ fun _ member => member
    exact Store.every_withBuiltins (by simp [Value.MadeOf, Value.code])
      fun b => by simp [Value.MadeOf, Value.code]
  obtain ⟨values, _, code⟩ := within
  rw [kept] at values code
  refine ⟨Reader.appends_compile formed Reader.fresh text true, ⟨values, ?_⟩, ?_⟩
  · intro v member
    cases member
  · intro frame member
    cases List.mem_singleton.mp member
    exact Machine.frameOf_toList code

/-- The diagnostic for undefined calls is right about execution. A text that compiles in a new
session has an index. When evaluating it comes to a call of a name that the index lists as
undefined, the call fails as the application of nil, and so the evaluation ends. If evaluating it
ends in an undefined application, that is a call of a name which the index lists as undefined or has
a definition of. Witness: all code that runs mentions only names of the text, so a name without an
assignment in the text keeps the builtin or the nil that it starts with.
-/
theorem undefined_calls_exact
    (compiled : ((Session.new settings console).compile text true).1 = .ok chunk)
    : let start : Machine := {
        ((Session.new settings console).compile text true).2.machine with
        frames := [chunk.toList]
      }
      ∃ index,
        Index.ofText text = .ok index
        ∧ (∀ steps m id name,
            start.after steps = some m
            → m.instruction? = some ⟨.apply, id⟩
            → m.store.name? id = some name
            → index.CallsUndefined name
            → (∃ last, m.step = .stopped (.fault (.notApplicable name .nil)) last)
              ∧ ∀ fuel,
                  steps < fuel
                  → ∃ next,
                      (Session.new settings console).eval fuel text true
                      = some (.error (.stop (.fault (.notApplicable name .nil))), next))
        ∧ ∀ fuel fault next,
            (Session.new settings console).eval fuel text true
              = some (.error (.stop (.fault fault)), next)
            → fault.kind = .undefinedApplication
            → ∃ steps m id name type,
                steps < fuel
                ∧ start.after steps = some m
                ∧ m.instruction? = some ⟨.apply, id⟩
                ∧ m.store.name? id = some name
                ∧ fault = .notApplicable name type
                ∧ (index.CallsUndefined name ∨ (index.definition? name).isSome) := by
  intro start
  have closed := closed_new settings console
  have ready := ready_of_compile compiled
  have begins : start.Closed := (closed.compile_ok compiled).starts (List.mem_cons_self ..)
  obtain ⟨code, empty⟩ := Reader.compile_empty_of_compile Store.closed_withBuiltins.formed
    (by rw [← Store.withBuiltins.covered, Store.values_withBuiltins]; decide) compiled
  obtain ⟨index, indexed⟩ := Index.exists_ofText empty
  obtain ⟨records, _⟩ := Index.records_of_ofText indexed
  obtain ⟨listed, _, _, evaluates⟩ := closed.eval_of_ok compiled
  refine ⟨index, indexed, ?_, ?_⟩
  · intro steps m id name reached known named undefined
    obtain ⟨_, never, noBuiltin⟩ := records.lists.callsUndefined_iff.mp undefined
    obtain ⟨last, step⟩ := ready.step_of_undefined reached known named never noBuiltin
    refine ⟨⟨last, step⟩, ?_⟩
    intro fuel enough
    rw [evaluates, Machine.runChunk, Machine.run_of_after reached step enough]
    exact ⟨_, rfl⟩
  · intro fuel fault next failed undefined
    rw [evaluates, Option.map_eq_some_iff] at failed
    obtain ⟨ending, ran, settled⟩ := failed
    obtain ⟨_, same, stopped⟩ := settle_error (congrArg Prod.fst settled)
    cases same
    obtain ⟨steps, m, ⟨op, id⟩, last, bound, reached, known, step, _⟩ :=
      begins.last_moment ran stopped
    cases fault with
    | notApplicable name type =>
        obtain ⟨rfl, named, called, noBuiltin⟩ := ready.of_notApplicable begins reached known step
        refine ⟨steps, m, id, name, type, bound, reached, known, named, rfl, ?_⟩
        rw [records.lists.isSome_definition?_iff, records.lists.callsUndefined_iff]
        by_cases assigned : (.assign, name) ∈ Token.mentions (Token.sequence text)
        · exact .inr assigned
        · exact .inl ⟨called, assigned, noBuiltin assigned⟩
    | _ => cases undefined

/-- A builtin under another name, and a call of an unknown name inside a function. -/
theorem undefined_call_inside_function
    : let s := Session.new [] {}
      let text := "$+ $=plus ( 1 2 plus f ) $=g g".toList
      ∃ index,
        Index.ofText text = .ok index
        ∧ index.CallsUndefined "f"
        ∧ ∀ fuel,
            20 ≤ fuel
            → ∃ next,
                s.eval fuel text true
                = some (.error (.stop (.fault (.notApplicable "f" .nil))), next) := by
  have compiled : ((Session.new [] {}).compile "$+ $=plus ( 1 2 plus f ) $=g g".toList true).1
      = .ok ⟨#[1, 0, 0, 0, 0, 3, 0, 0, 0, 23, 1, 0, 0, 0, 27, 3, 0, 0, 0, 28, 2, 0, 0, 0, 28]⟩ := by
    cbv
  have fails : ((Session.new [] {}).eval 20 "$+ $=plus ( 1 2 plus f ) $=g g".toList true).map
        Prod.fst
      = some (.error (.stop (.fault (.notApplicable "f" .nil)))) := by
    cbv
  have defined : (Index.ofText "$+ $=plus ( 1 2 plus f ) $=g g".toList).toOption.map
        (fun index => (index.definition? "f").isSome)
      = some false := by
    cbv
  intro s text
  change (s.eval 20 text true).map _ = _ at fails
  change (Index.ofText text).toOption.map _ = _ at defined
  obtain ⟨index, indexed, forward, backward⟩ := undefined_calls_exact compiled
  have indexed : Index.ofText text = .ok index := indexed
  obtain ⟨⟨result, next⟩, evaluated, ends⟩ := Option.map_eq_some_iff.mp fails
  obtain rfl : result = .error (.stop (.fault (.notApplicable "f" .nil))) := ends
  obtain ⟨steps, m, id, name, type, bound, reached, known, named, same, listed⟩ :=
    backward 20 _ next evaluated rfl
  cases same
  have undefined : index.CallsUndefined "f" := by
    refine listed.resolve_right ?_
    rw [indexed] at defined
    simpa [Except.toOption] using defined
  refine ⟨index, indexed, undefined, ?_⟩
  intro fuel enough
  exact (forward steps m id "f" reached known named undefined).2 fuel (by omega)

end Session

end StackText
