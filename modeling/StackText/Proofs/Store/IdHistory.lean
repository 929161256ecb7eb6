import Mathlib
import StackText.Proofs.Machine.AssignedSlots
import StackText.Proofs.Reader.AppendedSlots

/-! Ids over the whole history of a store. Whatever is done to a store comes down to giving out the
next id, with a new name or without one, and to putting values into slots. So ids are given out in
order, each of them once, and what an id was given to stays so.
-/

namespace StackText

namespace Store

-----------------------------------------------------------------------------------------
-- Operations
-----------------------------------------------------------------------------------------

/-- What a host program, a reader or a machine can ask of a store. A reader compiles text over it
with whatever was kept before, and a machine runs over it with whatever calls are active.
-/
inductive Operation where
  | intern (name : String)
  | alloc (v : Value)
  | set (id : Int) (v : Value)
  | define (name : String) (v : Value)
  | lookup (id : Int)
  | lookupName (name : String)
  | nameOf (id : Int)
  | compile (reader : Reader) (text : List Char) (final : Bool)
  | run (machine : Machine)

/-- (op.looksUp) holds of the operations that only ask for a value or a name. -/
def Operation.looksUp : Operation → Bool
  | .lookup _ | .lookupName _ | .nameOf _ => true
  | _ => false

/-- (store.Performs op next) holds if the operation leaves the next store, also where it fails. -/
inductive Performs (store : Store) : Operation → Store → Prop
  | intern (name)
    : Performs store (.intern name) (store.intern name).2
  | alloc (v)
    : Performs store (.alloc v) (store.alloc v).2
  | set {id v next} (found : store.set? id v = some next)
    : Performs store (.set id v) next
  | refuse {id v} (missing : store.set? id v = none)
    : Performs store (.set id v) store
  | define (name v)
    : Performs store (.define name v) (store.define name v).2
  | lookup (id)
    : Performs store (.lookup id) store
  | lookupName (name)
    : Performs store (.lookupName name) store
  | nameOf (id)
    : Performs store (.nameOf id) store
  | compile (reader text final)
    : Performs store (.compile reader text final) (reader.compile store text final).store
  | run {machine fuel ending} (ran : Machine.run fuel { machine with store } = some ending)
    : Performs store (.run machine) ending.machine.store

/-- (old.Becomes ops new) holds if the operations lead from the one store to the other. -/
inductive Becomes (old : Store) : List Operation → Store → Prop
  | nil
    : Becomes old [] old
  | snoc {ops store op next} (becomes : Becomes old ops store) (performs : store.Performs op next)
    : Becomes old (ops ++ [op]) next

-----------------------------------------------------------------------------------------
-- What operations are made of
-----------------------------------------------------------------------------------------

/-- (old.Gives ids new) holds if the new store comes from the old one by giving out new ids and
putting values into slots. The ids are those that were answered, in that order.
-/
inductive Gives (old : Store) : List Nat → Store → Prop
  | refl
    : Gives old [] old
  | alloc {ids store} (gives : Gives old ids store) (v)
    : Gives old (ids ++ [(store.alloc v).1]) (store.alloc v).2
  | intern {ids store name} (gives : Gives old ids store) (new : store.symbols.id? name = none)
    : Gives old (ids ++ [(store.intern name).1]) (store.intern name).2
  | set {ids store} (gives : Gives old ids store) (id v)
    : Gives old ids (store.set id v)

theorem Gives.trans {old middle new : Store} {ids more : List Nat} (first : old.Gives ids middle)
    (second : middle.Gives more new)
    : old.Gives (ids ++ more) new := by
  induction second with
  | refl => simpa using first
  | alloc _ v ih => simpa using ih.alloc v
  | intern _ new ih => simpa using ih.intern new
  | set _ id v ih => exact ih.set id v

theorem exists_gives_intern (store : Store) (name : String)
    : ∃ ids, store.Gives ids (store.intern name).2 := by
  cases known : store.symbols.id? name with
  | none => exact ⟨_, Gives.refl.intern known⟩
  | some id =>
      rw [intern_of_some known]
      exact ⟨[], .refl⟩

/-- A token of the text asks for an unnamed slot, for the slot of a name or for nothing, whether or
not it stops compiling.
-/
theorem exists_gives_token (draft : Draft) (token : Token)
    : ∃ ids, draft.store.Gives ids (draft.token token).1.store := by
  rcases draft.store_token token with same | ⟨v, _, same⟩ | ⟨op, name, _, same⟩
  · rw [same]; exact ⟨[], .refl⟩
  · rw [same]; exact ⟨_, Gives.refl.alloc v⟩
  · rw [same]; exact exists_gives_intern draft.store name

/-- Tokens give out ids one after another, by induction on them. -/
theorem exists_gives_tokens (draft : Draft) (tokens : List Token)
    : ∃ ids, draft.store.Gives ids (draft.tokens tokens).1.store := by
  induction tokens generalizing draft with
  | nil => exact ⟨[], .refl⟩
  | cons t tokens ih =>
      obtain ⟨ids, first⟩ := exists_gives_token draft t
      rw [Draft.tokens]
      split
      · next next read =>
          rw [read] at first
          obtain ⟨more, later⟩ := ih next
          exact ⟨ids ++ more, first.trans later⟩
      · exact ⟨ids, first⟩

/-- No instruction gives out an id. -/
theorem kept_gives (old : Store)
    : State.Kept fun s => old.Gives [] s.store where
  next := by
    intro s t i gives effect
    rcases State.effect_next effect with ⟨v, _, _, rfl⟩ | ⟨v, stack, _, _, _, rfl⟩
      | ⟨b, result, console, _, _, _, rfl⟩
    · exact gives
    · exact gives.set i.id v
    · exact gives
  stop := by
    intro s t i why gives effect
    rw [(State.effect_stop effect).1]
    exact gives

/-- Every operation is made of giving out ids and putting values into slots. -/
theorem Performs.exists_gives {store next : Store} {op : Operation}
    (performs : store.Performs op next)
    : ∃ ids, store.Gives ids next := by
  cases performs with
  | intern name => exact exists_gives_intern store name
  | alloc v => exact ⟨_, Gives.refl.alloc v⟩
  | @set id v next found =>
      rw [set?] at found
      split at found
      · cases found; exact ⟨[], Gives.refl.set _ v⟩
      · cases found
  | define name v =>
      obtain ⟨ids, gives⟩ := exists_gives_intern store name
      exact ⟨ids, gives.set _ v⟩
  | refuse | lookup | lookupName | nameOf => exact ⟨[], .refl⟩
  | compile reader text final =>
      rw [Reader.compile_eq, Reader.store_conclude]
      exact exists_gives_tokens ⟨store, reader.outer, reader.chunk⟩ _
  | @run machine fuel ending ran =>
      exact ⟨[], (kept_gives store).run (m := { machine with store }) .refl ran⟩

theorem Becomes.exists_gives {old new : Store} {ops : List Operation}
    (becomes : old.Becomes ops new)
    : ∃ ids, old.Gives ids new := by
  induction becomes with
  | nil => exact ⟨[], .refl⟩
  | snoc _ performs ih =>
      obtain ⟨ids, first⟩ := ih
      obtain ⟨more, later⟩ := performs.exists_gives
      exact ⟨ids ++ more, first.trans later⟩

-----------------------------------------------------------------------------------------
-- The ids that were given out
-----------------------------------------------------------------------------------------

section

variable {old new : Store} {ids : List Nat}

/-- Ids are given out in order from the first that is free, by induction on what happens. -/
theorem Gives.ids_eq (gives : old.Gives ids new)
    : new.symbols.size = old.symbols.size + ids.length
      ∧ ids = List.range' old.symbols.size ids.length := by
  induction gives with
  | refl => exact ⟨rfl, rfl⟩
  | @alloc ids store _ v ih =>
      obtain ⟨size, inOrder⟩ := ih
      have answer : (store.alloc v).1 = old.symbols.size + ids.length := size
      refine ⟨?_, ?_⟩
      · simp only [alloc_eq, SymbolTable.addUnnamed, SymbolTable.size, Array.size_push] at size ⊢
        rw [List.length_append, List.length_singleton]
        omega
      · rw [answer, List.length_append, List.length_singleton, List.range'_1_concat, ← inOrder]
  | @intern ids store name _ new ih =>
      obtain ⟨size, inOrder⟩ := ih
      have answer : (store.intern name).1 = old.symbols.size + ids.length := by
        rw [intern_of_none new, size]
      refine ⟨?_, ?_⟩
      · simp only [intern_of_none new, SymbolTable.intern, new, SymbolTable.size,
          Array.size_push] at size ⊢
        rw [List.length_append, List.length_singleton]
        omega
      · rw [answer, List.length_append, List.length_singleton, List.range'_1_concat, ← inOrder]
  | set _ id v ih => exact ih

theorem Gives.wellFormed (gives : old.Gives ids new) (formed : old.WellFormed)
    : new.WellFormed := by
  induction gives with
  | refl => exact formed
  | alloc _ v ih => exact ih.alloc v
  | intern _ _ ih => exact ih.intern _
  | set _ id v ih => exact ih.set id v

theorem Gives.names (gives : old.Gives ids new)
    : old.symbols.names.toList <+: new.symbols.names.toList := by
  induction gives with
  | refl => exact List.prefix_rfl
  | alloc _ v ih => exact ih.trans (grows_alloc _ v).names
  | intern _ _ ih => exact ih.trans (grows_intern _ _).names
  | set _ id v ih => exact ih

/-- The ids are those between the two sizes. -/
theorem Gives.inOrder (gives : old.Gives ids new)
    : old.Gives (List.range' old.size (new.size - old.size)) new := by
  obtain ⟨size, inOrder⟩ := gives.ids_eq
  have before : old.size = old.symbols.size := old.covered
  have after : new.size = new.symbols.size := new.covered
  have count : new.size - old.size = ids.length := by omega
  rw [count, before, ← inOrder]
  exact gives

/-- A name keeps its id. -/
theorem Gives.id? (gives : old.Gives ids new) (formed : old.WellFormed) {name : String} {id : Nat}
    (known : old.symbols.id? name = some id)
    : new.symbols.id? name = some id := by
  rw [formed.inverse name id] at known
  have given : id < old.symbols.size := (Array.getElem?_eq_some_iff.mp known).1
  exact ((gives.wellFormed formed).inverse name id).mpr
    ((SymbolTable.names_grown gives.names given).trans known)

end

end Store

-----------------------------------------------------------------------------------------
-- The list of names
-----------------------------------------------------------------------------------------

namespace SymbolTable

variable {table : SymbolTable}

theorem Inverse.mem_nameList (inverse : table.Inverse) {name : String}
    : name ∈ table.nameList ↔ ∃ id, table.id? name = some id := by
  simp only [nameList, table.ordered, List.mem_filterMap, id_eq, exists_eq_right, inverse name]
  rw [List.mem_iff_getElem?]
  simp only [Array.getElem?_toList]

/-- The names are listed in the order of their ids. -/
theorem Inverse.pairwise_nameList (inverse : table.Inverse)
    : table.nameList.Pairwise fun name later =>
        ∃ i j, table.id? name = some i ∧ table.id? later = some j ∧ i < j := by
  rw [nameList, table.ordered, List.pairwise_filterMap, List.pairwise_iff_getElem]
  intro i j first second before name here later there
  refine ⟨i, j, (inverse name i).mpr ?_, (inverse later j).mpr ?_, before⟩
  · rw [← Array.getElem?_toList, List.getElem?_eq_getElem first, ← here]
    rfl
  · rw [← Array.getElem?_toList, List.getElem?_eq_getElem second, ← there]
    rfl

end SymbolTable

-----------------------------------------------------------------------------------------
-- Histories
-----------------------------------------------------------------------------------------

namespace Store

/-- Looking up values and names leaves a store as it is, by induction on the operations. -/
theorem Becomes.eq_of_looksUp {old new : Store} {ops : List Operation}
    (becomes : old.Becomes ops new) (looks : ∀ op ∈ ops, op.looksUp = true)
    : new = old := by
  induction becomes with
  | nil => rfl
  | @snoc ops store op next _ performs ih =>
      have same := ih fun op member => looks op (List.mem_append_left _ member)
      have last : op.looksUp = true := looks op (by simp)
      cases performs with
      | lookup | lookupName | nameOf => exact same
      | _ => cases last

/-- Names and ids stay in step over every history of a store. After any operations on an empty
store, failing ones included: every id has a slot; a name has an id exactly where that id has the
name, so that no two names have the same id and an unnamed id is that of no name; the ids that were
given out are 0, 1, 2 and so on, in this order; an operation answers the id that a name has, or else
the next one; and the names are listed in the order of their ids. Whatever follows, an id keeps its
name or stays unnamed, a name keeps its id, further ids come in order, and looking up changes
nothing. Witness: every operation is made of giving out the next id and putting values into slots.
-/
theorem ids_in_step_with_names {ops : List Operation} {store : Store}
    (history : empty.Becomes ops store)
    : store.size = store.symbols.size
      ∧ (∀ name id,
          store.symbols.id? name = some id ↔ store.symbols.names[id]? = some (some name))
      ∧ (∀ name other id,
          store.symbols.id? name = some id → store.symbols.id? other = some id → name = other)
      ∧ (∀ id : Nat, store.name? id = none → ∀ name, store.symbols.id? name ≠ some id)
      ∧ empty.Gives (List.range store.size) store
      ∧ (∀ v, (store.alloc v).1 = store.size)
      ∧ (∀ name, (store.intern name).1 = (store.symbols.id? name).getD store.size)
      ∧ (∀ name v, (store.define name v).1 = (store.symbols.id? name).getD store.size)
      ∧ (∀ name, name ∈ store.symbols.nameList ↔ ∃ id, store.symbols.id? name = some id)
      ∧ (store.symbols.nameList.Pairwise fun name later =>
          ∃ i j, store.symbols.id? name = some i ∧ store.symbols.id? later = some j ∧ i < j)
      ∧ ∀ more later,
          store.Becomes more later
          → store.Gives (List.range' store.size (later.size - store.size)) later
            ∧ (∀ id : Nat, id < store.size → later.name? id = store.name? id)
            ∧ (∀ name id,
                store.symbols.id? name = some id → later.symbols.id? name = some id)
            ∧ ((∀ op ∈ more, op.looksUp = true) → later = store) := by
  obtain ⟨ids, gives⟩ := history.exists_gives
  have formed := gives.wellFormed wellFormed_empty
  have covered : store.size = store.symbols.size := store.covered
  have inverse := formed.inverse
  have answer (name : String)
      : (store.intern name).1 = (store.symbols.id? name).getD store.size := by
    cases known : store.symbols.id? name with
    | none => rw [intern_of_none known, covered]; rfl
    | some id => rw [intern_of_some known]; rfl
  refine ⟨covered, inverse, ?_, ?_, ?_, fun v => covered.symm, answer, fun name v => answer name,
    fun name => inverse.mem_nameList, inverse.pairwise_nameList, ?_⟩
  · intro name other id here there
    have same := ((inverse name id).mp here).symm.trans ((inverse other id).mp there)
    simpa using same
  · intro id unnamed name known
    have named := name?_eq_some_iff.mpr ((inverse name id).mp known)
    cases unnamed.symm.trans named
  · have inOrder := gives.inOrder
    rw [List.range_eq_range']
    exact inOrder
  · intro more later becomes
    obtain ⟨further, gives⟩ := becomes.exists_gives
    refine ⟨gives.inOrder, ?_, fun name id known => gives.id? formed known,
      becomes.eq_of_looksUp⟩
    intro id bound
    exact name?_grown gives.names (Nat.lt_of_lt_of_eq bound covered)

/-- A literal between two names, a slot that does not exist, and a text that is malformed behind a
block: all ids are given out in order, and looking up a name gives it none.
-/
theorem ids_in_step_after_malformed_text
    : let start := ((empty.define "+" (.builtin .add)).2.alloc (.int 7)).2
      let store := (Reader.fresh.compile start "( b 1 ) $=c )".toList true).store
      empty.Becomes
          [.define "+" (.builtin .add), .alloc (.int 7), .set 9 .nil,
            .compile .fresh "( b 1 ) $=c )".toList true]
          store
      ∧ store.symbols.nameList = ["+", "b", "c"]
      ∧ empty.Gives [0, 1, 2, 3, 4, 5] store
      ∧ ∀ later,
          store.Becomes [.lookupName "d", .nameOf 1] later → later.symbols.id? "d" = none := by
  have facts : let start := ((empty.define "+" (.builtin .add)).2.alloc (.int 7)).2
      let store := (Reader.fresh.compile start "( b 1 ) $=c )".toList true).store
      (store.size, store.symbols.nameList, store.symbols.id? "d") = (6, ["+", "b", "c"], none) := by
    cbv
  have missing : ((empty.define "+" (.builtin .add)).2.alloc (.int 7)).2.set? 9 .nil = none := by
    cbv
  intro start store
  change (store.size, store.symbols.nameList, store.symbols.id? "d") = _ at facts
  obtain ⟨size, facts⟩ := Prod.mk.inj facts
  obtain ⟨names, unknown⟩ := Prod.mk.inj facts
  have history : empty.Becomes _ store :=
    .snoc (.snoc (.snoc (.snoc .nil (.define "+" (.builtin .add))) (.alloc (.int 7)))
      (.refuse missing)) (.compile .fresh "( b 1 ) $=c )".toList true)
  obtain ⟨_, _, _, _, gives, _, _, _, _, _, onward⟩ := ids_in_step_with_names history
  rw [size] at gives
  refine ⟨history, names, gives, ?_⟩
  intro later becomes
  obtain ⟨_, _, _, same⟩ := onward _ later becomes
  rw [same (by simp [Operation.looksUp]), unknown]

end Store

end StackText
