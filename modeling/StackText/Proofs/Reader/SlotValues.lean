import StackText.Proofs.Reader.Conclusion

/-! Compiling looks at the symbol table and never at the values of the slots. What it adds to the
store comes behind the slots that are there, whatever they hold.
-/

namespace StackText

namespace Store

variable {base store : Store}

/-- A slot behind all slots of the smaller store keeps its value. -/
theorem extend_push (grown : base.size ≤ store.size) {symbols : SymbolTable} {v : Value}
    (covered : (store.values.push v).size = symbols.size)
    (extended : ((base.extend store).values.push v).size = symbols.size)
    : base.extend ⟨symbols, store.values.push v, covered⟩
      = ⟨symbols, (base.extend store).values.push v, extended⟩ := by
  have beyond : base.get? store.values.size = none := Array.getElem?_eq_none grown
  simp [extend, Array.mapIdx_push, beyond]

theorem extend_alloc (grown : base.size ≤ store.size) (v : Value)
    : (base.extend store).alloc v = ((store.alloc v).1, base.extend (store.alloc v).2) := by
  rw [alloc_eq, alloc_eq, extend_push grown]
  rfl

theorem extend_intern (grown : base.size ≤ store.size) (name : String)
    : (base.extend store).intern name
      = ((store.intern name).1, base.extend (store.intern name).2) := by
  cases known : store.symbols.id? name with
  | some id =>
      have other : (base.extend store).symbols.id? name = some id := known
      rw [intern_of_some other, intern_of_some known]
  | none =>
      have other : (base.extend store).symbols.id? name = none := known
      rw [intern_of_none other, intern_of_none known, extend_push grown]
      rfl

theorem size_of_symbols (same : base.symbols = store.symbols)
    : base.size = store.size := by
  rw [Store.size, Store.size, base.covered, store.covered, same]

/-- A store with the same symbol table takes no slots from another. -/
theorem extend_of_symbols (same : base.symbols = store.symbols)
    : base.extend store = base := by
  have size := size_of_symbols same
  refine ext_get? same.symm fun id => ?_
  by_cases bound : id < base.size
  · exact get?_extend_of_lt (Nat.le_of_eq size) bound
  · have here : base.get? id = none := Array.getElem?_eq_none (Nat.le_of_not_lt bound)
    have there : store.get? id = none :=
      Array.getElem?_eq_none (Nat.le_trans (Nat.le_of_eq size.symm) (Nat.le_of_not_lt bound))
    rw [get?_extend, here, there]
    rfl

end Store

namespace Draft

/-- The draft with the values of another store in the slots that both have. -/
def withValues (base : Store) (draft : Draft) : Draft :=
  { draft with store := base.extend draft.store }

theorem emit_withValues (base : Store) (draft : Draft) (i : Instruction)
    : (draft.withValues base).emit i
      = ((draft.emit i).1.withValues base, (draft.emit i).2) := by
  rw [emit_eq, emit_eq]
  split <;> rfl

theorem literal_withValues {base : Store} {draft : Draft} (grown : base.size ≤ draft.store.size)
    (value : Nat → Value)
    : (draft.withValues base).literal value
      = ((draft.literal value).1.withValues base, (draft.literal value).2) := by
  rw [literal_eq, literal_eq, ← emit_withValues]
  have slot := Store.extend_alloc grown (value draft.store.symbols.size)
  exact congrArg (fun given : Nat × Store => emit ⟨given.2, draft.outer, draft.chunk⟩
    ⟨.load, draft.store.symbols.size⟩) slot

theorem named_withValues {base : Store} {draft : Draft} (grown : base.size ≤ draft.store.size)
    (op : Opcode) (name : String)
    : (draft.withValues base).named op name
      = ((draft.named op name).1.withValues base, (draft.named op name).2) := by
  rw [named_eq, named_eq, ← emit_withValues]
  have slot := Store.extend_intern grown name
  exact congrArg (fun given : Nat × Store => emit ⟨given.2, draft.outer, draft.chunk⟩
    ⟨op, given.1⟩) slot

/-- Tokens compile alike over other values. -/
theorem commutes_withValues {base store : Store} (same : base.symbols = store.symbols)
    : Commutes store (withValues base) := by
  have slots {later : Store} (grown : store.Grows later) : base.size ≤ later.size :=
    Store.size_of_symbols same ▸ grown.values.length_le
  refine ⟨fun _ value grown => literal_withValues (slots grown) value,
    fun _ op name grown => named_withValues (slots grown) op name, fun _ => rfl, ?_⟩
  intro draft grown
  obtain ⟨store, outer, block⟩ := draft
  cases outer with
  | nil => rfl
  | cons chunk outer =>
      exact @literal_withValues _ ⟨store, outer, chunk⟩ (slots grown) (blockValue block)

end Draft

namespace Reader

theorem conclude_withValues (final : Bool) (text : List Char) (base : Store) (draft : Draft)
    (stoppage : Option Stoppage)
    : conclude final text (draft.withValues base, stoppage)
      = {
          conclude final text (draft, stoppage) with
          store := base.extend draft.store
        } := by
  cases stoppage with
  | none =>
      obtain ⟨store, outer, chunk⟩ := draft
      cases outer with
      | nil => rfl
      | cons c outer => cases final <;> rfl
  | some stoppage =>
      cases stoppage with
      | strayClose | numeral fault | code fault => rfl
      | unterminated rest => cases final <;> rfl

/-- Compiling over other values gives the same code, and adds the same slots to those values. -/
theorem compile_of_symbols {base store : Store} (same : base.symbols = store.symbols)
    (reader : Reader) (piece : List Char) (final : Bool)
    : reader.compile base piece final
      = {
          reader.compile store piece final with
          store := base.extend (reader.compile store piece final).store
        } := by
  have start : (⟨base, reader.outer, reader.chunk⟩ : Draft)
      = Draft.withValues base ⟨store, reader.outer, reader.chunk⟩ := by
    rw [Draft.withValues, Store.extend_of_symbols same]
  rw [compile_eq, compile_eq, start,
    (Draft.commutes_withValues same).tokens (.refl _), conclude_withValues, store_conclude]

end Reader

end StackText
