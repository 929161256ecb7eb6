import StackText.Proofs.Reader.Compilation
import StackText.Proofs.Store.IdHistory

/-! A text that compiles over some store compiles over the empty one. A name that only the larger
store knows has an id there already, so the smaller one can give out one without falling behind.
-/

namespace StackText

namespace Store

/-- (small.Spares large) holds if the smaller store has given out fewer ids, by at least the number
of names that only the larger one knows.
-/
def Spares (small large : Store) : Prop :=
  ∃ missing : List String,
    (∀ name,
      (large.symbols.id? name).isSome → (small.symbols.id? name).isSome ∨ name ∈ missing)
    ∧ small.symbols.size + missing.length ≤ large.symbols.size

theorem Spares.size_le {small large : Store} (spares : small.Spares large)
    : small.symbols.size ≤ large.symbols.size := by
  obtain ⟨missing, _, bound⟩ := spares
  omega

/-- The empty store spares as many ids as another store has names. -/
theorem spares_empty {store : Store} (formed : store.WellFormed)
    : empty.Spares store := by
  refine ⟨store.symbols.nameList, ?_, ?_⟩
  · intro name known
    obtain ⟨id, found⟩ := Option.isSome_iff_exists.mp known
    refine .inr (formed.inverse.mem_nameList.mpr ?_)
    exact ⟨id, found⟩
  · have bound := List.length_filterMap_le id store.symbols.names.toList
    rw [← store.symbols.ordered] at bound
    simpa [SymbolTable.nameList, empty, SymbolTable.size] using bound

theorem Spares.alloc {small large : Store} (spares : small.Spares large) (v w : Value)
    : (small.alloc v).2.Spares (large.alloc w).2 := by
  obtain ⟨missing, known, bound⟩ := spares
  refine ⟨missing, known, ?_⟩
  rw [size_alloc, size_alloc]
  omega

theorem size_intern_of_some {store : Store} {name : String}
    (known : (store.symbols.id? name).isSome)
    : (store.intern name).2.symbols.size = store.symbols.size := by
  obtain ⟨id, found⟩ := Option.isSome_iff_exists.mp known
  rw [intern_of_some found]

theorem size_intern_of_none {store : Store} {name : String}
    (new : ¬(store.symbols.id? name).isSome)
    : (store.intern name).2.symbols.size = store.symbols.size + 1 := by
  have unknown := Option.not_isSome_iff_eq_none.mp new
  rw [symbols_intern, ← covered_intern unknown, Array.size_push, store.covered]

/-- Looking up a name in both stores. If it is new to the smaller one only, it was missing there and
is so no longer.
-/
theorem Spares.intern {small large : Store} (spares : small.Spares large) (name : String)
    : (small.intern name).2.Spares (large.intern name).2 := by
  obtain ⟨missing, known, bound⟩ := spares
  have still : ∀ other, other ≠ name → ((large.intern name).2.symbols.id? other).isSome
      → ((small.intern name).2.symbols.id? other).isSome ∨ other ∈ missing := by
    intro other apart found
    rcases known other ((isSome_id?_intern.mp found).resolve_left apart) with here | lost
    · exact .inl (isSome_id?_intern.mpr (.inr here))
    · exact .inr lost
  have named : ((small.intern name).2.symbols.id? name).isSome := isSome_id?_intern.mpr (.inl rfl)
  by_cases smallKnows : (small.symbols.id? name).isSome
  · have grows := (grows_intern large name).size_le
    refine ⟨missing, ?_, ?_⟩
    · intro other found
      by_cases same : other = name
      · exact .inl (same ▸ named)
      · exact still other same found
    · rw [size_intern_of_some smallKnows]
      omega
  · by_cases largeKnows : (large.symbols.id? name).isSome
    · have lost : name ∈ missing := (known name largeKnows).resolve_left smallKnows
      refine ⟨missing.erase name, ?_, ?_⟩
      · intro other found
        by_cases same : other = name
        · exact .inl (same ▸ named)
        · exact (still other same found).imp id (List.mem_erase_of_ne same).mpr
      · have shorter := List.length_erase_of_mem lost
        have nonempty := List.length_pos_of_mem lost
        rw [size_intern_of_none smallKnows, size_intern_of_some largeKnows]
        omega
    · refine ⟨missing, ?_, ?_⟩
      · intro other found
        by_cases same : other = name
        · exact .inl (same ▸ named)
        · exact still other same found
      · rw [size_intern_of_none smallKnows, size_intern_of_none largeKnows]
        omega

end Store

namespace Draft

/-- (small.Spares large) holds of drafts with as many open blocks and stores of which the smaller
one spares ids, while all ids of the larger one fit.
-/
structure Spares (small large : Draft) : Prop where
  formed : small.store.WellFormed
  store : small.store.Spares large.store
  depth : small.outer.length = large.outer.length
  room : large.store.symbols.size ≤ idLimit

variable {small large next : Draft}

theorem Spares.withLiteral (spares : small.Spares large) (v w : Value)
    (fits : large.store.symbols.size < idLimit)
    : (small.withLiteral v).Spares (large.withLiteral w) := by
  refine ⟨spares.formed.alloc v, spares.store.alloc v w, spares.depth, ?_⟩
  rw [Draft.withLiteral, Store.size_alloc]
  omega

/-- A name fits in the smaller store where it does in the larger one. -/
theorem Spares.fits (spares : small.Spares large) {name : String}
    (fits : (large.store.intern name).1 < idLimit)
    : (small.store.intern name).1 < idLimit
      ∧ (large.store.intern name).2.symbols.size ≤ idLimit := by
  have room : (large.store.intern name).2.symbols.size ≤ idLimit := by
    by_cases known : (large.store.symbols.id? name).isSome
    · rw [Store.size_intern_of_some known]
      exact spares.room
    · rw [Store.size_intern_of_none known]
      rw [Store.intern_of_none (Option.not_isSome_iff_eq_none.mp known)] at fits
      exact fits
  have bound := SymbolTable.lt_size_of_name? (spares.formed.name?_intern name)
  have size := (spares.store.intern name).size_le
  exact ⟨by omega, room⟩

/-- A token that compiles over the larger store compiles over the smaller one, by cases on what it
does.
-/
theorem Compiles.spared {token : Token} (compiles : Compiles large token next)
    (spares : small.Spares large)
    : ∃ after, Compiles small token after ∧ after.Spares next := by
  have bound := spares.store.size_le
  cases compiles with
  | openBlock =>
      exact ⟨_, .openBlock small, spares.formed, spares.store, by simp [spares.depth], spares.room⟩
  | @closeBlock store chunk outer block fits =>
      obtain ⟨smallStore, smallOuter, smallBlock⟩ := small
      cases smallOuter with
      | nil => cases spares.depth
      | cons around beyond =>
          have outside : Spares ⟨smallStore, beyond, around⟩ ⟨store, outer, chunk⟩ :=
            ⟨spares.formed, spares.store, Nat.succ.inj spares.depth, spares.room⟩
          exact ⟨_, .closeBlock (Nat.lt_of_le_of_lt bound fits), outside.withLiteral _ _ fits⟩
  | string text fits =>
      exact ⟨_, .string text (Nat.lt_of_le_of_lt bound fits), spares.withLiteral _ _ fits⟩
  | number meaning fits =>
      exact ⟨_, .number meaning (Nat.lt_of_le_of_lt bound fits), spares.withLiteral _ _ fits⟩
  | @name _ word term op name meaning refers fits =>
      obtain ⟨here, room⟩ := spares.fits fits
      exact ⟨_, .name meaning refers here, spares.formed.intern name, spares.store.intern name,
        spares.depth, room⟩

/-- Tokens that compile over the larger store compile over the smaller one, by induction on them. -/
theorem CompilesAll.spared {tokens : List Token} (compiles : CompilesAll large tokens next)
    (spares : small.Spares large)
    : ∃ after, CompilesAll small tokens after ∧ after.Spares next := by
  induction compiles generalizing small with
  | nil => exact ⟨small, .nil small, spares⟩
  | cons first _ ih =>
      obtain ⟨middle, here, onward⟩ := first.spared spares
      obtain ⟨after, later, last⟩ := ih onward
      exact ⟨after, .cons here later, last⟩

end Draft

/-- A text that compiles over a store whose ids fit compiles over the empty store. -/
theorem Reader.compile_empty_of_compile {store : Store} (formed : store.WellFormed)
    (room : store.symbols.size ≤ idLimit) {text : List Char} {chunk : Chunk}
    (compiled : (fresh.compile store text true).result = .ok chunk)
    : ∃ code, (fresh.compile .empty text true).result = .ok code := by
  obtain ⟨draft, compiles, closed, _, _⟩ := compilesAll_of_compile compiled
  have start : Draft.Spares ⟨.empty, [], {}⟩ ⟨store, [], {}⟩ :=
    ⟨Store.wellFormed_empty, Store.spares_empty formed, rfl, room⟩
  obtain ⟨after, passed, spares⟩ := compiles.spared start
  have depth := spares.depth
  rw [closed] at depth
  refine ⟨after.chunk, ?_⟩
  have whole : fresh.compile .empty text true
      = conclude true text (Draft.tokens ⟨.empty, [], {}⟩ (Token.sequence text)) :=
    compile_eq fresh .empty text true
  rw [whole, passed.tokens_eq, conclude, if_pos (by simpa using depth)]

end StackText
