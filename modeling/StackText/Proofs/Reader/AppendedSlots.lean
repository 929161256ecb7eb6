import StackText.Proofs.Reader.Conclusion

/-! What compiling does to the store: it appends slots, and nothing else. Whatever comes of a text,
all ids, names and values that were there stay; each new slot has a name and holds nil, or has no
name and holds what a literal or a block of the text stands for.
-/

namespace StackText

-----------------------------------------------------------------------------------------
-- Stores
-----------------------------------------------------------------------------------------

namespace Store

/-- (old.Appends new) holds if the new store is the old one with slots behind: all ids, names and
values are the same, a further slot with a name holds nil, and one without holds a literal.
-/
structure Appends (old new : Store) : Prop where
  formed : new.WellFormed
  grows : old.Grows new
  ids : ∀ name id, old.symbols.id? name = some id → new.symbols.id? name = some id
  further
    : ∀ id v,
        old.size ≤ id
        → new.get? id = some v
        → (v = .nil ∧ ∃ name, new.name? id = some name)
          ∨ (v.IsLiteral id ∧ new.name? id = none)

theorem lt_size_of_get? {store : Store} {id : Nat} {v : Value} (found : store.get? id = some v)
    : id < store.size :=
  (Array.getElem?_eq_some_iff.mp found).1

theorem Appends.refl {store : Store} (formed : store.WellFormed)
    : store.Appends store := by
  refine ⟨formed, .refl store, fun _ _ known => known, ?_⟩
  intro id v beyond found
  have inside := lt_size_of_get? found
  omega

/-- Slots appended in two parts. What the first part added has the same name and value after the
second.
-/
theorem Appends.trans {old middle new : Store} (first : old.Appends middle)
    (second : middle.Appends new)
    : old.Appends new := by
  refine ⟨second.formed, first.grows.trans second.grows,
    fun name id known => second.ids name id (first.ids name id known), ?_⟩
  intro id v beyond found
  by_cases early : id < middle.size
  · have there : middle.get? id = some middle.values[id] := Array.getElem?_eq_getElem early
    cases (second.grows.get? there).symm.trans found
    have given : id < middle.symbols.size := Nat.lt_of_lt_of_eq early middle.covered
    rw [second.grows.name? given]
    exact first.further id _ beyond there
  · exact second.further id v (by omega) found

/-- What holds of all old slots and of all that a text can put into a new one holds of all slots. -/
theorem Appends.every {old new : Store} (appends : old.Appends new) {holds : Value → Prop}
    (every : old.Every holds) (nil : holds .nil) (literal : ∀ id v, v.IsLiteral id → holds v)
    : new.Every holds := by
  intro id v found
  by_cases early : id < old.size
  · have there : old.get? id = some old.values[id] := Array.getElem?_eq_getElem early
    cases (appends.grows.get? there).symm.trans found
    exact every id _ there
  · rcases appends.further id v (by omega) found with ⟨rfl, _⟩ | ⟨isLiteral, _⟩
    · exact nil
    · exact literal id v isLiteral

/-- A new unnamed slot with a literal. -/
theorem appends_alloc {store : Store} (formed : store.WellFormed) {v : Value}
    (literal : v.IsLiteral store.symbols.size)
    : store.Appends (store.alloc v).2 := by
  refine ⟨formed.alloc v, grows_alloc store v, fun _ _ known => known, ?_⟩
  intro id w beyond found
  have bound := lt_size_of_get? found
  have covered := store.covered
  rw [alloc_eq] at bound found ⊢
  simp only [size, Array.size_push] at bound beyond
  obtain rfl : id = store.symbols.size := by omega
  have last : store.values.size = store.symbols.size := covered
  rw [get?, ← last, Array.getElem?_push_size] at found
  cases found
  exact .inr ⟨literal, store.name?_alloc v⟩

/-- The slot of a name, new or old. -/
theorem appends_intern {store : Store} (formed : store.WellFormed) (name : String)
    : store.Appends (store.intern name).2 := by
  cases known : store.symbols.id? name with
  | some id =>
      rw [intern_of_some known]
      exact .refl formed
  | none =>
      have named := formed.name?_intern name
      have grows := grows_intern store name
      have later := formed.intern name
      have slots : (store.intern name).1 = store.symbols.size := by rw [intern_of_none known]
      refine ⟨later, grows, ?_, ?_⟩
      · intro other id old
        rw [formed.inverse other id] at old
        have given : id < store.symbols.size := (Array.getElem?_eq_some_iff.mp old).1
        exact (later.inverse other id).mpr ((SymbolTable.names_grown grows.names given).trans old)
      · intro id v beyond found
        have bound := lt_size_of_get? found
        have covered := store.covered
        rw [intern_of_none known] at bound found
        simp only [size, Array.size_push] at bound beyond
        obtain rfl : id = store.symbols.size := by omega
        rw [get?, ← covered, Array.getElem?_push_size] at found
        cases found
        exact .inl ⟨rfl, name, slots ▸ named⟩

end Store

-----------------------------------------------------------------------------------------
-- Compiling
-----------------------------------------------------------------------------------------

namespace Draft

/-- A token appends slots, whether or not it stops compiling. -/
theorem appends_token {draft : Draft} (formed : draft.store.WellFormed) (token : Token)
    : draft.store.Appends (draft.token token).1.store := by
  rcases draft.store_token token with same | ⟨v, literal, same⟩ | ⟨op, name, _, same⟩
  · rw [same]; exact .refl formed
  · rw [same]; exact Store.appends_alloc formed literal
  · rw [same]; exact Store.appends_intern formed name

/-- Tokens append slots, up to the one that stops compiling, by induction on them. -/
theorem appends_tokens {draft : Draft} (formed : draft.store.WellFormed) (tokens : List Token)
    : draft.store.Appends (draft.tokens tokens).1.store := by
  induction tokens generalizing draft with
  | nil => exact .refl formed
  | cons t tokens ih =>
      have first := appends_token formed t
      rw [Draft.tokens]
      split
      · next next read =>
          rw [read] at first
          exact first.trans (ih first.formed)
      · exact first

end Draft

/-- Compiling a piece of text appends slots, whatever comes of it. -/
theorem Reader.appends_compile {store : Store} (formed : store.WellFormed) (reader : Reader)
    (piece : List Char) (final : Bool)
    : store.Appends (reader.compile store piece final).store := by
  rw [compile_eq, store_conclude]
  exact @Draft.appends_tokens ⟨store, reader.outer, reader.chunk⟩ formed _

end StackText
