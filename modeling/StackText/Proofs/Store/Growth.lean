import StackText.Store.Basic

/-! The invariant of the store, and its growth. Names and ids are inverse to each other. New names
and literals take new slots behind the old ones, which stay as they are.
-/

namespace StackText

-----------------------------------------------------------------------------------------
-- Names and ids
-----------------------------------------------------------------------------------------

namespace SymbolTable

/-- (table.Inverse) holds if a name has an id exactly where the id has that name. -/
def Inverse (table : SymbolTable) : Prop :=
  ∀ name id, table.id? name = some id ↔ table.names[id]? = some (some name)

theorem name?_natCast (table : SymbolTable) (id : Nat)
    : table.name? id = table.names[id]?.join := by
  rw [name?, if_neg (by omega), Int.toNat_natCast]

theorem lt_size_of_name? {table : SymbolTable} {id : Nat} {name : String}
    (named : table.name? id = some name)
    : id < table.size := by
  rw [name?_natCast, Option.join_eq_some_iff] at named
  exact (Array.getElem?_eq_some_iff.mp named).1

/-- Ids that were given out keep their names when names are added behind. -/
theorem names_grown {table later : SymbolTable}
    (grows : table.names.toList <+: later.names.toList) {id : Nat} (known : id < table.size)
    : later.names[id]? = table.names[id]? := by
  rw [← Array.getElem?_toList, ← Array.getElem?_toList,
    List.prefix_iff_getElem?.mp grows id known, List.getElem?_eq_getElem known]

theorem inverse_empty
    : Inverse {} := by
  intro name id
  simp [id?]

/-- An unnamed id leaves all names as they are. -/
theorem Inverse.addUnnamed {table : SymbolTable} (inverse : table.Inverse)
    : table.addUnnamed.2.Inverse := by
  intro name id
  show table.id? name = some id ↔ (table.names.push none)[id]? = some (some name)
  rw [inverse name id, Array.getElem?_push]
  split
  · next last => simp [last]
  · exact Iff.rfl

/-- A new name gets the next id, and no other name has it. -/
theorem Inverse.intern {table : SymbolTable} (inverse : table.Inverse) (name : String)
    : (table.intern name).2.Inverse := by
  unfold SymbolTable.intern
  split
  · exact inverse
  · next new =>
      intro other id
      show (table.ids.insert name table.size)[other]? = some id
        ↔ (table.names.push (some name))[id]? = some (some other)
      have old : table.ids[other]? = some id ↔ table.names[id]? = some (some other) :=
        inverse other id
      simp only [Std.TreeMap.getElem?_insert, Array.getElem?_push,
        Std.LawfulEqCmp.compare_eq_iff_eq]
      by_cases same : name = other
      · subst same
        have absent : ¬table.names[id]? = some (some name) := by
          rw [← inverse, new]
          simp
        by_cases last : id = table.names.size
        · simp [last, size]
        · simp [last, absent, size, Ne.symm last]
      · by_cases last : id = table.names.size
        · subst last
          simpa [same] using mt old.mp
        · simp [same, last, old]

end SymbolTable

-----------------------------------------------------------------------------------------
-- Slots
-----------------------------------------------------------------------------------------

namespace Store

/-- (store.WellFormed) holds if names and ids are inverse. -/
structure WellFormed (store : Store) : Prop where
  inverse : store.symbols.Inverse

/-- Slots that cover all ids cover them as they are. -/
theorem cover_of_covered (store : Store) (fewer : store.values.size ≤ store.symbols.size)
    : cover store.symbols store.values fewer = store := by
  simp [cover, store.covered]

/-- One new id gets one slot, which holds nil. -/
theorem cover_of_next {store : Store} {symbols : SymbolTable}
    (next : (store.values.push .nil).size = symbols.size)
    (fewer : store.values.size ≤ symbols.size)
    : cover symbols store.values fewer = ⟨symbols, store.values.push .nil, next⟩ := by
  have one : symbols.size - store.values.size = 1 := by
    rw [← next, Array.size_push]
    omega
  simp [cover, one]

theorem covered_alloc (store : Store) (v : Value)
    : (store.values.push v).size = store.symbols.addUnnamed.2.size := by
  rw [Array.size_push, store.symbols.size_addUnnamed, store.covered]

/-- A new slot comes behind the others, and its value is put into it. -/
theorem alloc_eq (store : Store) (v : Value)
    : store.alloc v
      = (store.symbols.size,
          ⟨store.symbols.addUnnamed.2, store.values.push v, store.covered_alloc v⟩) := by
  have last : (store.values.push .nil).setIfInBounds store.symbols.size v
      = store.values.push v := by
    apply Array.toList_inj.mp
    simp [← store.covered]
  rw [alloc, cover_of_next (store.covered_alloc .nil)]
  simp [set, SymbolTable.addUnnamed, last]

theorem size_alloc (store : Store) (v : Value)
    : (store.alloc v).2.symbols.size = store.symbols.size + 1 := by
  rw [alloc_eq]
  exact store.symbols.size_addUnnamed

theorem symbols_intern (store : Store) (name : String)
    : (store.intern name).2.symbols = (store.symbols.intern name).2 :=
  rfl

theorem intern_of_some {store : Store} {name : String} {id : Nat}
    (known : store.symbols.id? name = some id)
    : store.intern name = (id, store) := by
  have given : store.symbols.intern name = (id, store.symbols) := by
    simp only [SymbolTable.intern, known]
  simp only [intern, given, cover_of_covered]

theorem covered_intern {store : Store} {name : String} (new : store.symbols.id? name = none)
    : (store.values.push .nil).size = (store.symbols.intern name).2.size := by
  simp [SymbolTable.intern, new, SymbolTable.size, store.covered]

/-- A new name gets the next id and a slot that holds nil. -/
theorem intern_of_none {store : Store} {name : String} (new : store.symbols.id? name = none)
    : store.intern name
      = (store.symbols.size,
          ⟨(store.symbols.intern name).2, store.values.push .nil, covered_intern new⟩) := by
  have given : (store.symbols.intern name).1 = store.symbols.size := by
    simp only [SymbolTable.intern, new]
  simp only [intern, given, cover_of_next (covered_intern new)]

theorem wellFormed_empty
    : empty.WellFormed :=
  ⟨SymbolTable.inverse_empty⟩

theorem WellFormed.alloc {store : Store} (formed : store.WellFormed) (v : Value)
    : (store.alloc v).2.WellFormed :=
  ⟨formed.inverse.addUnnamed⟩

theorem WellFormed.intern {store : Store} (formed : store.WellFormed) (name : String)
    : (store.intern name).2.WellFormed :=
  ⟨formed.inverse.intern name⟩

theorem WellFormed.set {store : Store} (formed : store.WellFormed) (id : Nat) (v : Value)
    : (store.set id v).WellFormed :=
  ⟨formed.inverse⟩

/-- The slot of a name exists once the name was looked up, and has that name. -/
theorem WellFormed.names_intern {store : Store} (formed : store.WellFormed) (name : String)
    : (store.intern name).2.symbols.names[(store.intern name).1]? = some (some name) := by
  cases known : store.symbols.id? name with
  | none => simp [intern_of_none known, SymbolTable.intern, known, SymbolTable.size]
  | some id => simpa [intern_of_some known] using (formed.inverse name id).mp known

theorem WellFormed.name?_intern {store : Store} (formed : store.WellFormed) (name : String)
    : (store.intern name).2.name? (store.intern name).1 = some name := by
  rw [Store.name?, SymbolTable.name?_natCast, formed.names_intern name]
  rfl

/-- A new slot for a value has no name. -/
theorem name?_alloc (store : Store) (v : Value)
    : (store.alloc v).2.name? store.symbols.size = none := by
  rw [Store.name?, SymbolTable.name?_natCast]
  simp [alloc_eq, SymbolTable.addUnnamed, SymbolTable.size]

/-- Looking up a name makes that name known, and no other. -/
theorem isSome_id?_intern {store : Store} {name other : String}
    : ((store.intern name).2.symbols.id? other).isSome
      ↔ other = name ∨ (store.symbols.id? other).isSome := by
  cases known : store.symbols.id? name with
  | some id =>
      rw [intern_of_some known]
      refine ⟨.inr, ?_⟩
      rintro (rfl | found)
      · exact known ▸ rfl
      · exact found
  | none =>
      have inserted : (store.intern name).2.symbols.id? other
          = if name = other then some store.symbols.size else store.symbols.id? other := by
        simp only [intern_of_none known, SymbolTable.intern, known]
        simp [SymbolTable.id?, Std.TreeMap.getElem?_insert]
      rw [inserted]
      split
      · next same => simp [same]
      · next apart => simp [Ne.symm apart]

-----------------------------------------------------------------------------------------
-- Growth
-----------------------------------------------------------------------------------------

/-- (old.Grows new) holds if the new store has all ids, names and values of the old one, and
perhaps more behind them.
-/
structure Grows (old new : Store) : Prop where
  names : old.symbols.names.toList <+: new.symbols.names.toList
  values : old.values.toList <+: new.values.toList

theorem Grows.refl (store : Store)
    : store.Grows store :=
  ⟨List.prefix_rfl, List.prefix_rfl⟩

theorem Grows.trans {old middle new : Store} (first : old.Grows middle)
    (second : middle.Grows new)
    : old.Grows new :=
  ⟨first.names.trans second.names, first.values.trans second.values⟩

theorem grows_alloc (store : Store) (v : Value)
    : store.Grows (store.alloc v).2 :=
  ⟨by simp [alloc_eq, SymbolTable.addUnnamed], by simp [alloc_eq]⟩

theorem grows_intern (store : Store) (name : String)
    : store.Grows (store.intern name).2 := by
  cases known : store.symbols.id? name with
  | none =>
      rw [intern_of_none known]
      exact ⟨by simp [SymbolTable.intern, known], by simp⟩
  | some id =>
      rw [intern_of_some known]
      exact .refl store

theorem Grows.size_le {old new : Store} (grows : old.Grows new)
    : old.symbols.size ≤ new.symbols.size :=
  grows.names.length_le

/-- A slot keeps its value in a grown store. -/
theorem Grows.get? {old new : Store} (grows : old.Grows new) {id : Nat} {v : Value}
    (found : old.get? id = some v)
    : new.get? id = some v := by
  rw [Store.get?, ← Array.getElem?_toList] at found ⊢
  obtain ⟨bound, rfl⟩ := List.getElem?_eq_some_iff.mp found
  exact List.prefix_iff_getElem?.mp grows.values id bound

/-- An id keeps its name, or stays unnamed, where names are added behind. -/
theorem name?_grown {old new : Store}
    (grows : old.symbols.names.toList <+: new.symbols.names.toList) {id : Nat}
    (known : id < old.symbols.size)
    : new.name? id = old.name? id := by
  rw [Store.name?, Store.name?, SymbolTable.name?_natCast, SymbolTable.name?_natCast,
    SymbolTable.names_grown grows known]

theorem Grows.name? {old new : Store} (grows : old.Grows new) {id : Nat}
    (known : id < old.symbols.size)
    : new.name? id = old.name? id :=
  name?_grown grows.names known

-----------------------------------------------------------------------------------------
-- The values in the slots
-----------------------------------------------------------------------------------------

/-- (store.Every holds) says that a property holds of the values of all slots. -/
def Every (holds : Value → Prop) (store : Store) : Prop :=
  ∀ id v, store.get? id = some v → holds v

section

variable {holds : Value → Prop} {store : Store}

theorem Every.alloc (every : store.Every holds) {v : Value} (value : holds v)
    : (store.alloc v).2.Every holds := by
  intro id w found
  rw [alloc_eq, get?, Array.getElem?_push] at found
  split at found
  · cases found; exact value
  · exact every id w found

theorem Every.intern (every : store.Every holds) (nil : holds .nil) (name : String)
    : (store.intern name).2.Every holds := by
  intro id v found
  cases known : store.symbols.id? name with
  | none =>
      rw [intern_of_none known, get?, Array.getElem?_push] at found
      split at found
      · cases found; exact nil
      · exact every id v found
  | some slot =>
      rw [intern_of_some known] at found
      exact every id v found

theorem Every.set (every : store.Every holds) (id : Nat) {v : Value} (value : holds v)
    : (store.set id v).Every holds := by
  intro other w found
  rw [Store.set, get?, Array.getElem?_setIfInBounds] at found
  split at found
  · split at found
    · cases found; exact value
    · cases found
  · exact every other w found

theorem Every.define (every : store.Every holds) (nil : holds .nil) (name : String) {v : Value}
    (value : holds v)
    : (store.define name v).2.Every holds :=
  (every.intern nil name).set _ value

/-- Binding the builtins to their words one after another puts nothing else into the slots. -/
theorem Every.defineBuiltins (every : store.Every holds) (nil : holds .nil)
    (builtin : ∀ b, holds (.builtin b)) (builtins : List Builtin)
    : (builtins.foldl (fun store b => (store.define b.word (.builtin b)).2) store).Every holds := by
  induction builtins generalizing store with
  | nil => exact every
  | cons b builtins ih => exact ih (every.define nil b.word (builtin b))

theorem every_withBuiltins (nil : holds .nil) (builtin : ∀ b, holds (.builtin b))
    : withBuiltins.Every holds := by
  have none : empty.Every holds := by simp [Every, empty, get?]
  exact none.defineBuiltins nil builtin Builtin.all

end

-----------------------------------------------------------------------------------------
-- Further slots
-----------------------------------------------------------------------------------------

/-- The larger store with the values of the smaller one in the slots that both have. -/
def extend (store larger : Store) : Store where
  symbols := larger.symbols
  values := larger.values.mapIdx fun id v => (store.get? id).getD v
  covered := by rw [Array.size_mapIdx, larger.covered]

theorem get?_extend (store larger : Store) (id : Nat)
    : (store.extend larger).get? id
      = (larger.get? id).map fun v => (store.get? id).getD v := by
  rw [extend, get?, Array.getElem?_mapIdx]
  rfl

/-- The slots of the smaller store have its values. -/
theorem get?_extend_of_lt {store larger : Store} (fewer : store.size ≤ larger.size) {id : Nat}
    (bound : id < store.size)
    : (store.extend larger).get? id = store.get? id := by
  have further : id < larger.values.size := Nat.lt_of_lt_of_le bound fewer
  have here : store.get? id = some store.values[id] := Array.getElem?_eq_getElem bound
  have there : larger.get? id = some larger.values[id] := Array.getElem?_eq_getElem further
  rw [get?_extend, here, there]
  rfl

/-- Stores are alike if their tables and slots are. -/
theorem ext_get? {store other : Store} (symbols : store.symbols = other.symbols)
    (slots : ∀ id, store.get? id = other.get? id)
    : store = other := by
  obtain ⟨_, values, _⟩ := store
  obtain ⟨_, others, _⟩ := other
  cases symbols
  cases Array.ext_getElem? slots
  rfl

theorem get?_set (store : Store) (id other : Nat) (v : Value)
    : (store.set id v).get? other
      = if id = other then (store.get? other).map fun _ => v else store.get? other := by
  rw [set, get?, get?, Array.getElem?_setIfInBounds]
  by_cases same : id = other
  · subst same
    by_cases bound : id < store.values.size <;> simp [bound]
  · simp [same]

/-- Putting a value into a slot of the smaller store leaves the further slots as they are. -/
theorem set_extend {store : Store} {id : Nat} (bound : id < store.size) (v : Value)
    (larger : Store)
    : (store.extend larger).set id v = (store.set id v).extend larger := by
  refine ext_get? rfl fun other => ?_
  rw [get?_set, get?_extend, get?_extend, get?_set]
  have here : store.get? id = some store.values[id] := Array.getElem?_eq_getElem bound
  split
  · next same => subst same; cases larger.get? id <;> simp [here]
  · rfl

end Store

end StackText
