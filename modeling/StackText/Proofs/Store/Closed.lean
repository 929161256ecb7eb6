import StackText.Proofs.Code.Encoding
import StackText.Proofs.Store.Growth

/-! Closed code and closed values. Code is closed over a symbol table if it is a sequence of
instructions on ids of the table, of which those that are applied or assigned to have names. A value
is closed if all code in it is, and a store if all its values are. Whatever is closed stays so when
the table grows.
-/

namespace StackText

/-- (i.Closed table) holds if the id was given out, and has a name unless it is loaded from. -/
structure Instruction.Closed (table : SymbolTable) (i : Instruction) : Prop where
  given : i.id < table.size
  named : i.op ≠ .load → ∃ name, table.names[i.id]? = some (some name)

/-- (chunk.Closed table) holds if the chunk is a sequence of closed instructions. -/
def Chunk.Closed (table : SymbolTable) (chunk : Chunk) : Prop :=
  ∃ code, chunk.Encodes code ∧ ∀ i ∈ code, i.Closed table
/-- (v.Closed table) holds if all functions in the value have closed code. -/
def Value.Closed (table : SymbolTable) : Value → Prop
  | .func f => f.chunk.Closed table
  | .pair _ left right => left.Closed table ∧ right.Closed table
  | _ => True

-----------------------------------------------------------------------------------------
-- Growth of the table
-----------------------------------------------------------------------------------------

theorem Instruction.Closed.grown {table later : SymbolTable} {i : Instruction}
    (closed : i.Closed table) (grows : table.names.toList <+: later.names.toList)
    : i.Closed later := by
  refine ⟨Nat.lt_of_lt_of_le closed.given grows.length_le, ?_⟩
  intro refers
  obtain ⟨name, known⟩ := closed.named refers
  exact ⟨name, (SymbolTable.names_grown grows closed.given).trans known⟩

theorem Chunk.Closed.grown {table later : SymbolTable} {chunk : Chunk}
    (closed : chunk.Closed table) (grows : table.names.toList <+: later.names.toList)
    : chunk.Closed later :=
  MadeOf.mono closed fun _ instruction => instruction.grown grows

/-- A closed value stays closed, by induction on the pairs in it. -/
theorem Value.Closed.grown {table later : SymbolTable} {v : Value} (closed : v.Closed table)
    (grows : table.names.toList <+: later.names.toList)
    : v.Closed later := by
  induction v with
  | func f => exact Chunk.Closed.grown closed grows
  | pair serial left right leftGrown rightGrown =>
      exact ⟨leftGrown closed.1, rightGrown closed.2⟩
  | _ => trivial

theorem Chunk.closed_empty (table : SymbolTable)
    : Chunk.Closed table {} :=
  madeOf_empty _

theorem Chunk.Closed.push {table : SymbolTable} {chunk : Chunk} (closed : chunk.Closed table)
    {i : Instruction} (instruction : i.Closed table) (fits : i.id < idLimit)
    : (chunk.push i).Closed table :=
  MadeOf.push closed instruction fits

-----------------------------------------------------------------------------------------
-- The store
-----------------------------------------------------------------------------------------

namespace Store

/-- (store.Closed) holds of a well-formed store whose values are closed over its symbol table. -/
structure Closed (store : Store) : Prop where
  formed : store.WellFormed
  values : ∀ id v, store.get? id = some v → v.Closed store.symbols

theorem closed_empty
    : empty.Closed :=
  ⟨wellFormed_empty, by simp [empty, get?]⟩

/-- A new unnamed slot with a closed value keeps the store closed. -/
theorem Closed.alloc {store : Store} (closed : store.Closed) {v : Value}
    (value : v.Closed store.symbols)
    : (store.alloc v).2.Closed := by
  have grows := (grows_alloc store v).names
  have every : store.Every (Value.Closed (store.alloc v).2.symbols) := fun id w found =>
    (closed.values id w found).grown grows
  exact ⟨closed.formed.alloc v, every.alloc (value.grown grows)⟩

/-- Looking up a name keeps the store closed, since a new slot holds nil. -/
theorem Closed.intern {store : Store} (closed : store.Closed) (name : String)
    : (store.intern name).2.Closed := by
  have grows := (grows_intern store name).names
  have every : store.Every (Value.Closed (store.intern name).2.symbols) := fun id v found =>
    (closed.values id v found).grown grows
  exact ⟨closed.formed.intern name, every.intern trivial name⟩

theorem Closed.set {store : Store} (closed : store.Closed) (id : Nat) {v : Value}
    (value : v.Closed store.symbols)
    : (store.set id v).Closed :=
  ⟨closed.formed.set id v, Every.set closed.values id value⟩

theorem Closed.define {store : Store} (closed : store.Closed) (name : String) {v : Value}
    (value : v.Closed store.symbols)
    : (store.define name v).2.Closed :=
  (closed.intern name).set _ (value.grown (grows_intern store name).names)

/-- Binding the builtins to their words one after another leaves a closed store closed. -/
theorem Closed.defineBuiltins {store : Store} (closed : store.Closed) (builtins : List Builtin)
    : (builtins.foldl (fun store b => (store.define b.word (.builtin b)).2) store).Closed := by
  induction builtins generalizing store with
  | nil => exact closed
  | cons b builtins ih => exact ih (closed.define b.word (v := .builtin b) trivial)

/-- A store in which every builtin is bound to its word is closed. -/
theorem closed_withBuiltins
    : withBuiltins.Closed :=
  closed_empty.defineBuiltins Builtin.all

end Store

end StackText
