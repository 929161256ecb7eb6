import StackText.Proofs.Machine.OwnCode
import StackText.Proofs.Reader.Conclusion

/-! Compiled code mentions no other names than its text, also in blocks. An instruction on a named
slot comes from a word of the text, and a slot that has no name never gets one.
-/

namespace StackText

/-- (i.Among table mentions) holds if the id was given out, and an instruction on a named slot is
one of the mentions.
-/
structure Instruction.Among (table : SymbolTable) (mentions : List (Opcode × String))
    (i : Instruction) : Prop where
  given : i.id < table.size
  mentioned : ∀ name, table.name? i.id = some name → (i.op, name) ∈ mentions

theorem Instruction.Among.grown {old new : Store} {mentions : List (Opcode × String)}
    {i : Instruction} (among : i.Among old.symbols mentions) (grows : old.Grows new)
    : i.Among new.symbols mentions := by
  refine ⟨Nat.lt_of_lt_of_le among.given grows.size_le, ?_⟩
  intro name named
  exact among.mentioned name ((grows.name? among.given).symm.trans named)

namespace Draft

/-- (draft.Within mentions) holds if all code of a draft mentions no other names: that in the store
and that of all open blocks.
-/
structure Within (mentions : List (Opcode × String)) (draft : Draft) : Prop where
  store : draft.store.Every (Value.MadeOf (Instruction.Among draft.store.symbols mentions))
  outer
    : ∀ chunk ∈ draft.outer, chunk.MadeOf (Instruction.Among draft.store.symbols mentions)
  chunk : draft.chunk.MadeOf (Instruction.Among draft.store.symbols mentions)

variable {mentions : List (Opcode × String)} {draft next : Draft}

/-- A literal in a new slot without a name. -/
theorem Within.withLiteral (within : draft.Within mentions) {v : Value}
    (value : v.MadeOf (Instruction.Among draft.store.symbols mentions))
    (fits : draft.store.symbols.size < idLimit)
    : (draft.withLiteral v).Within mentions := by
  have kept : ∀ i : Instruction, i.Among draft.store.symbols mentions
      → i.Among (draft.store.alloc v).2.symbols mentions :=
    fun i among => among.grown (Store.grows_alloc draft.store v)
  have every : draft.store.Every (Value.MadeOf
      (Instruction.Among (draft.store.alloc v).2.symbols mentions)) :=
    fun id w found => (within.store id w found).mono kept
  have load : Instruction.Among (draft.store.alloc v).2.symbols mentions
      ⟨.load, draft.store.symbols.size⟩ := by
    refine ⟨by simp [Store.alloc_eq, SymbolTable.addUnnamed, SymbolTable.size], ?_⟩
    intro name named
    cases (draft.store.name?_alloc v).symm.trans named
  exact ⟨every.alloc (value.mono kept), fun chunk member => (within.outer chunk member).mono kept,
    (within.chunk.mono kept).push load fits⟩

/-- An instruction on the slot of a name that is mentioned. -/
theorem Within.withName (within : draft.Within mentions) (formed : draft.store.WellFormed)
    {op : Opcode} {name : String} (member : (op, name) ∈ mentions)
    (fits : (draft.store.intern name).1 < idLimit)
    : (draft.withName op name).Within mentions := by
  have kept : ∀ i : Instruction, i.Among draft.store.symbols mentions
      → i.Among (draft.store.intern name).2.symbols mentions :=
    fun i among => among.grown (Store.grows_intern draft.store name)
  have every : draft.store.Every (Value.MadeOf
      (Instruction.Among (draft.store.intern name).2.symbols mentions)) :=
    fun id w found => (within.store id w found).mono kept
  have named := formed.name?_intern name
  have refers : Instruction.Among (draft.store.intern name).2.symbols mentions
      ⟨op, (draft.store.intern name).1⟩ := by
    refine ⟨SymbolTable.lt_size_of_name? named, ?_⟩
    intro other same
    cases named.symm.trans same
    exact member
  exact ⟨every.intern (by simp [Value.MadeOf, Value.code]) name,
    fun chunk member => (within.outer chunk member).mono kept,
    (within.chunk.mono kept).push refers fits⟩

/-- A token that compiles adds no other mention than its own, by cases on what the token does. -/
theorem Compiles.within {token : Token} (compiles : Compiles draft token next)
    (formed : draft.store.WellFormed) (within : draft.Within mentions)
    (mentioned : ∀ mention ∈ token.mention?, mention ∈ mentions)
    : next.Within mentions := by
  cases compiles with
  | openBlock =>
      exact ⟨within.store, List.forall_mem_cons.mpr ⟨within.chunk, within.outer⟩,
        Chunk.madeOf_empty _⟩
  | @closeBlock store chunk outer block fits =>
      obtain ⟨around, beyond⟩ := List.forall_mem_cons.mp within.outer
      have outside : Within mentions ⟨store, outer, chunk⟩ := ⟨within.store, beyond, around⟩
      refine outside.withLiteral ?_ fits
      intro body member
      cases List.mem_singleton.mp member
      exact within.chunk
  | string text fits => exact within.withLiteral (by simp [Value.MadeOf, Value.code]) fits
  | @number _ word n meaning fits =>
      refine within.withLiteral ?_ fits
      cases n <;> simp [Value.MadeOf, Value.code, Number.value]
  | @name _ word term op name meaning refers fits =>
      refine within.withName formed (mentioned _ ?_) fits
      simp [Token.mention?, meaning, Except.toOption, refers]

/-- Tokens that compile add no other mentions than their own, by induction on them. -/
theorem CompilesAll.within {tokens : List Token} (compiles : CompilesAll draft tokens next)
    (formed : draft.store.WellFormed) (within : draft.Within mentions)
    (mentioned : ∀ mention ∈ Token.mentions tokens, mention ∈ mentions)
    : next.Within mentions := by
  induction compiles with
  | nil => exact within
  | @cons draft token middle tokens next first _ ih =>
      refine ih (first.wellFormed formed) (first.within formed within ?_) ?_
      · intro mention here
        exact mentioned mention (List.mem_filterMap.mpr ⟨token, by simp, here⟩)
      · intro mention later
        obtain ⟨other, member, found⟩ := List.mem_filterMap.mp later
        exact mentioned mention (List.mem_filterMap.mpr ⟨other, by simp [member], found⟩)

end Draft

end StackText
