import Std.Data.TreeMap
import StackText.Value.Basic

/-! The store: a table of names and one slot for each id of the table. Named slots hold
variables, unnamed slots hold the literals and blocks of the source text.
-/

namespace StackText

/-- Names and ids. Both kinds of id are drawn from one count, so no id is given out twice. -/
structure SymbolTable where
  /-- The id of each name. -/
  ids : Std.TreeMap String Nat := {}
  /-- The names that have ids, in the order in which they were entered. -/
  entered : Array String := #[]
  /-- The name of each id; none for an unnamed slot. -/
  names : Array (Option String) := #[]
  /-- Names are entered in the order of their ids. -/
  ordered : entered.toList = names.toList.filterMap id := by rfl

namespace SymbolTable

/-- The number of ids given out. -/
def size (table : SymbolTable) : Nat := table.names.size

/-- The id of a name, if it has one. -/
def id? (table : SymbolTable) (name : String) : Option Nat := table.ids[name]?

/-- The name of an id; none if it is unnamed or was not given out. -/
def name? (table : SymbolTable) (id : Int) : Option String :=
  if id < 0 then none else (table.names[id.toNat]?).join

/-- All names, in the order in which they were entered. -/
def nameList (table : SymbolTable) : List String := table.entered.toList

/-- Gives out an id without a name. -/
def addUnnamed (table : SymbolTable) : Nat × SymbolTable :=
  (table.size, {
    table with
    names := table.names.push none
    ordered := by simp [table.ordered]
  })

/-- The id of a name, given out now if the name is new. -/
def intern (table : SymbolTable) (name : String) : Nat × SymbolTable :=
  match table.id? name with
  | some id => (id, table)
  | none =>
      (table.size, {
        ids := table.ids.insert name table.size
        entered := table.entered.push name
        names := table.names.push (some name)
        ordered := by simp [table.ordered]
      })

theorem size_addUnnamed (table : SymbolTable)
    : table.addUnnamed.2.size = table.size + 1 := by
  simp [addUnnamed, size]

theorem size_le_intern (table : SymbolTable) (name : String)
    : table.size ≤ (table.intern name).2.size := by
  rw [intern]
  split
  · exact Nat.le_refl _
  · simp [size]

/-- A summary of the table. -/
def summary (table : SymbolTable) : String :=
  s!"SymbolTable({table.ids.size} named, {table.size} total)"

end SymbolTable

/-- The symbol table and the value of every slot. -/
structure Store where
  symbols : SymbolTable := {}
  values : Array Value := #[]
  /-- Every id has a slot. -/
  covered : values.size = symbols.size := by rfl

namespace Store

/-- The number of slots. -/
def size (store : Store) : Nat := store.values.size

/-- The value of a slot. -/
def get? (store : Store) (id : Nat) : Option Value := store.values[id]?

/-- The value of a slot, where a negative id counts back from the last slot. -/
def at? (store : Store) (id : Int) : Option Value :=
  let offset := if id < 0 then id + store.size else id
  if offset < 0 then none else store.values[offset.toNat]?

/-- Puts a value into a slot; nothing changes if there is no such slot. -/
def set (store : Store) (id : Nat) (v : Value) : Store :=
  {
    store with
    values := store.values.setIfInBounds id v
    covered := by simp [store.covered]
  }

/-- Puts a value into a slot; none if there is no such slot. -/
def set? (store : Store) (id : Int) (v : Value) : Option Store :=
  if 0 ≤ id ∧ id < store.size then some (store.set id.toNat v) else none

/-- The name of a slot. -/
def name? (store : Store) (id : Int) : Option String := store.symbols.name? id

/-- Grows the slots to cover all ids of a table. Each new slot holds nil. -/
def cover (symbols : SymbolTable) (values : Array Value) (fewer : values.size ≤ symbols.size)
    : Store where
  symbols := symbols
  values := values ++ List.replicate (symbols.size - values.size) Value.nil
  covered := by
    rw [← Array.length_toList, Array.toList_appendList, List.length_append, List.length_replicate,
      Array.length_toList]
    omega

/-- A new unnamed slot that holds a value. -/
def alloc : Store → Value → Nat × Store
  | ⟨symbols, values, covered⟩, v =>
      let given := symbols.addUnnamed
      have fewer : values.size ≤ given.2.size := by
        rw [symbols.size_addUnnamed]
        omega
      (given.1, (cover given.2 values fewer).set given.1 v)

/-- The slot of a name. A new name gets a new slot, which holds nil. -/
def intern : Store → String → Nat × Store
  | ⟨symbols, values, covered⟩, name =>
      let given := symbols.intern name
      have fewer : values.size ≤ given.2.size := covered ▸ symbols.size_le_intern name
      (given.1, cover given.2 values fewer)

/-- Binds a name to a value. -/
def define (store : Store) (name : String) (v : Value) : Nat × Store :=
  let (id, store) := store.intern name
  (id, store.set id v)

/-- The value bound to a name; nil for a name that has no slot. -/
def value (store : Store) (name : String) : Value :=
  ((store.symbols.id? name).bind store.get?).getD .nil

/-- A store without slots. -/
def empty : Store := {}

/-- A store in which every builtin is bound to its word. -/
def withBuiltins : Store :=
  Builtin.all.foldl (fun store b => (store.define b.word (.builtin b)).2) empty

/-- A summary of the store. -/
def summary (store : Store) : String := s!"Environment({store.size} slots)"

end Store

end StackText
