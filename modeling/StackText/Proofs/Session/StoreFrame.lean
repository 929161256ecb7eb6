import Mathlib
import StackText.Proofs.Machine.AssignedSlots
import StackText.Proofs.Reader.AppendedSlots
import StackText.Proofs.Session.Reachable

/-! Who may change the store. Compiling appends slots, running assigns to named ones, and so what a
literal or a block stands for is the same throughout a session.
-/

namespace StackText

namespace Store

/-- An unnamed slot has another id than any name. -/
theorem get?_define_of_unnamed {store : Store} (formed : store.WellFormed) {id : Nat}
    (bound : id < store.size) (unnamed : store.name? id = none) (name : String) (v : Value)
    : (store.define name v).2.get? id = store.get? id := by
  have grows := grows_intern store name
  have apart : (store.intern name).1 ≠ id := by
    rintro rfl
    have named := Store.name?_eq_some_iff.mpr (formed.names_intern name)
    rw [grows.name? (Nat.lt_of_lt_of_eq bound (Store.covered _))] at named
    cases unnamed.symm.trans named
  have found : store.get? id = some store.values[id] := Array.getElem?_eq_getElem bound
  rw [found]
  exact ((store.intern name).2.get?_set_of_ne v apart).trans (grows.get? found)

end Store

namespace Session

/-- (Retains s given t) holds if a session that has gone on from s to t is closed, has all ids of s
with their names or lack of one, and the same values in the slots without a name.
-/
structure Retains (s : Session) (given : List Chunk) (t : Session) : Prop where
  closed : t.Closed given
  names : s.machine.store.symbols.names.toList <+: t.machine.store.symbols.names.toList
  unnamed
    : ∀ id,
        id < s.machine.store.symbols.size
        → s.machine.store.name? id = none
        → t.machine.store.get? id = s.machine.store.get? id

variable {s t next : Session} {given : List Chunk} {id : Nat}

theorem Retains.bound (retains : s.Retains given t) (known : id < s.machine.store.symbols.size)
    : id < t.machine.store.size := by
  have covered : t.machine.store.size = t.machine.store.symbols.size :=
    Store.covered _
  rw [covered]
  exact Nat.lt_of_lt_of_le known retains.names.length_le

theorem Retains.name? (retains : s.Retains given t) (known : id < s.machine.store.symbols.size)
    : t.machine.store.name? id = s.machine.store.name? id :=
  Store.name?_grown retains.names known

/-- Reassigning named slots leaves the slots alone that had no name. -/
theorem Retains.reassigns {steps : Nat} {frames : List (List UInt8)} {m : Machine}
    (retains : s.Retains given t)
    (reassigns : Machine.Reassigns { t.machine with frames } steps m)
    (known : id < s.machine.store.symbols.size) (unnamed : s.machine.store.name? id = none)
    : m.store.get? id = s.machine.store.get? id := by
  have still : t.machine.store.name? id = none := (retains.name? known).trans unnamed
  exact (reassigns.get?_of_unnamed still).trans (retains.unnamed id known unnamed)

theorem Closed.retains (closed : s.Closed given)
    : s.Retains given s :=
  ⟨closed, List.prefix_rfl, fun _ _ _ => rfl⟩

/-- Each operation retains ids, names and unnamed slots. -/
theorem kept_retains (s : Session)
    : Kept (fun _ _ => False) s.Retains where
  compile := by
    intro given t retains text final
    have appends := Reader.appends_compile retains.closed.state.store.formed t.reader text final
    refine ⟨retains.closed.compile text final, ?_, ?_⟩
    · rw [machine_recover]
      exact retains.names.trans appends.grows.names
    intro id known unnamed
    rw [machine_recover]
    have found := Array.getElem?_eq_getElem (retains.bound known)
    have same := retains.unnamed id known unnamed
    rw [Store.get?, found] at same
    rw [← same]
    exact appends.grows.get? found
  run := by
    intro given t fuel chunk result next retains member ran
    have closed := kept_closed.run retains.closed member ran
    rcases machine_of_run ran with same | ⟨ending, ended, same⟩
    · exact ⟨closed, same ▸ retains.names, same ▸ retains.unnamed⟩
    · have reassigns := (retains.closed.starts member).reassigns_run ended
      rw [← same] at reassigns
      refine ⟨closed, ?_, fun id known unnamed => retains.reassigns reassigns known unnamed⟩
      have symbols : next.machine.store.symbols = t.machine.store.symbols := reassigns.symbols
      rw [symbols]
      exact retains.names
  define _ never := never.elim
  bindText := by
    intro given t retains name text
    have formed := retains.closed.state.store.formed
    refine ⟨retains.closed.define name trivial,
      retains.names.trans (Store.grows_intern t.machine.store name).names, ?_⟩
    intro id known unnamed
    have still : t.machine.store.name? id = none := (retains.name? known).trans unnamed
    exact (Store.get?_define_of_unnamed formed (retains.bound known) still name _).trans
      (retains.unnamed id known unnamed)
  resetReader retains := ⟨retains.closed.resetReader, retains.names, retains.unnamed⟩
  withConsole retains console :=
    ⟨kept_closed.withConsole retains.closed console, retains.names, retains.unnamed⟩
  note retains text := ⟨retains.closed.note text, retains.names, retains.unnamed⟩
  fewer retains := ⟨kept_closed.fewer retains.closed, retains.names, retains.unnamed⟩

/-- Only compiling adds to the store, and only assignments change it. In every session that text
leads to from a new one: compiling any text, whatever comes of it, changes nothing but the store,
where all ids, names and values stay and each further slot holds nil if it has a name and else a
literal or the function of a block; running any code that was given out or is held changes, at no
moment and with no outcome, the symbol table or the number of slots, and a slot that has another
value has a name and was assigned to. Hence a slot without a name keeps its value however the
session goes on, from where it was added, also in the middle of every later run. Witness: tokens
allocate and look up names only, closed code assigns to named ids only, and every operation of a
session is made of compiling and running.
-/
theorem store_changes {settings : Settings} {console : Console} {compiled : List Chunk}
    {s : Session} (history : Continues [] (Session.new settings console) compiled s)
    : (∀ text final,
        let next := (s.compile text final).2
        next.machine = { s.machine with store := next.machine.store }
        ∧ s.machine.store.Appends next.machine.store)
      ∧ (∀ chunk ∈ compiled ++ s.machine.state.code,
          let start : Machine := { s.machine with frames := [chunk.toList] }
          (∀ steps m, start.after steps = some m → start.Reassigns steps m)
          ∧ ∀ fuel ending, start.run fuel = some ending → start.Reassigns fuel ending.machine)
      ∧ ∀ later t,
          Continues compiled s later t
          → ∀ id,
              id < s.machine.store.size
              → s.machine.store.name? id = none
              → t.machine.store.name? id = none
                ∧ t.machine.store.get? id = s.machine.store.get? id
                ∧ ∀ chunk ∈ later ++ t.machine.state.code,
                    ∀ steps m,
                      Machine.after steps { t.machine with frames := [chunk.toList] } = some m
                      → m.store.get? id = s.machine.store.get? id := by
  have closed := ((kept_retains _).reaches (closed_new settings console).retains history).closed
  refine ⟨?_, ?_, ?_⟩
  · intro text final next
    exact ⟨rfl, Reader.appends_compile closed.state.store.formed s.reader text final⟩
  · intro chunk member start
    have starts : start.Closed := closed.starts member
    exact ⟨fun steps m reached => starts.reassigns_after reached,
      fun fuel ending ran => starts.reassigns_run ran⟩
  · intro later t continues id bound unnamed
    have known : id < s.machine.store.symbols.size :=
      Nat.lt_of_lt_of_eq bound (Store.covered _)
    have retains : s.Retains later t :=
      (kept_retains s).reaches closed.retains continues
    refine ⟨(retains.name? known).trans unnamed, retains.unnamed id known unnamed, ?_⟩
    intro chunk member steps m reached
    have starts := retains.closed.starts member
    exact retains.reassigns (starts.reassigns_after reached) known unnamed

/-- A literal keeps its slot while a block gives the variable next to it another value, and also
when a later text is malformed.
-/
theorem store_changes_beside_literal
    : let given := (Session.new [] {}).compile "7 $=x ( 5 $=x ) $=f f".toList true
      ∃ chunk result next,
        given.1 = .ok chunk
        ∧ given.2.machine.store.name? 23 = none
        ∧ given.2.machine.store.get? 23 = some (.int 7)
        ∧ given.2.machine.store.get? 24 = some .nil
        ∧ given.2.run 40 chunk = some (result, next)
        ∧ next.machine.store.get? 24 = some (.int 5)
        ∧ (next.compile "8 ) 9".toList true).2.machine.store.get? 23 = some (.int 7) := by
  have history : Continues [] (Session.new [] {}) _ _ :=
    .compile .refl "7 $=x ( 5 $=x ) $=f f".toList true
  have ends : (match (Session.new [] {}).compile "7 $=x ( 5 $=x ) $=f f".toList true with
      | (.ok chunk, s) => (s.run 40 chunk).map fun ending =>
          (s.machine.store.size, s.machine.store.name? 23, s.machine.store.get? 23,
            s.machine.store.get? 24, ending.2.machine.store.get? 24)
      | (.error _, _) => none) = some (28, none, some (.int 7), some .nil, some (.int 5)) := by
    cbv
  generalize Session.compile _ _ true = given at history ends ⊢
  obtain ⟨code, s⟩ := given
  cases code with
  | error fault => cases ends
  | ok chunk =>
      obtain ⟨⟨result, next⟩, ran, same⟩ := Option.map_eq_some_iff.mp ends
      simp only [Prod.mk.injEq] at same
      obtain ⟨size, unnamed, seven, fresh, five⟩ := same
      have later : Continues [chunk] s _ _ :=
        .compile (.run .refl (by simp) ran) "8 ) 9".toList true
      have bound : 23 < s.machine.store.size := by omega
      obtain ⟨_, _, keeps⟩ := store_changes history
      obtain ⟨_, kept, _⟩ := keeps _ _ later 23 bound unnamed
      rw [machine_recover] at kept
      exact ⟨chunk, result, next, rfl, unnamed, seven, fresh, ran, five, kept.trans seven⟩

end Session

end StackText
