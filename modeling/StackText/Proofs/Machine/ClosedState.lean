import StackText.Proofs.Machine.InheritedValues
import StackText.Proofs.Store.Closed

/-! Running keeps a machine closed: the code in its store and on its stack stays closed over the
symbol table, and the table stays as it is.
-/

namespace StackText

/-- No builtin makes code, so that closed operands have closed results. -/
theorem Value.inherited_closed (table : SymbolTable)
    : Value.Inherited (Value.Closed table) where
  int _ := trivial
  remainder _ _ := trivial
  float _ _ := trivial
  str _ := trivial
  pair := Iff.rfl

namespace State

/-- (s.Closed) holds if the store and all values on the stack are closed. -/
structure Closed (s : State) : Prop where
  store : s.store.Closed
  stack : ∀ v ∈ s.stack, v.Closed s.store.symbols

theorem Closed.every {s : State} (closed : s.Closed)
    : s.Every (Value.Closed s.store.symbols) :=
  ⟨closed.store.values, closed.stack⟩

/-- A state with the same symbol table and a well-formed store is closed if all its values are. -/
theorem Every.closed {s next : State} (every : next.Every (Value.Closed s.store.symbols))
    (symbols : next.store.symbols = s.store.symbols) (formed : next.store.WellFormed)
    : next.Closed :=
  ⟨⟨formed, symbols ▸ every.store⟩, symbols ▸ every.stack⟩

/-- An instruction that leads on keeps the state closed, and the symbol table as it is. -/
theorem Closed.next {s next : State} (closed : s.Closed) {i : Instruction}
    (effect : s.effect i = .next next)
    : next.Closed ∧ next.store.symbols = s.store.symbols := by
  have every := closed.every.next (Value.inherited_closed _) effect
  have formed := closed.store.formed
  rcases effect_next effect with ⟨v, _, _, rfl⟩ | ⟨v, stack, _, _, _, rfl⟩
    | ⟨b, result, console, _, _, _, rfl⟩
  · exact ⟨every.closed rfl formed, rfl⟩
  · exact ⟨every.closed rfl (formed.set i.id v), rfl⟩
  · exact ⟨every.closed rfl formed, rfl⟩

/-- An instruction that stops the run keeps the state closed, and the symbol table as it is. -/
theorem Closed.stop {s last : State} (closed : s.Closed) {i : Instruction} {why : Stop}
    (effect : s.effect i = .stop why last)
    : last.Closed ∧ last.store.symbols = s.store.symbols := by
  have store := (effect_stop effect).1
  have symbols : last.store.symbols = s.store.symbols := by rw [store]
  exact ⟨(closed.every.stop effect).closed symbols (store ▸ closed.store.formed), symbols⟩

theorem Closed.call {s : State} (closed : s.Closed) {i : Instruction} {f : Function}
    (effect : s.effect i = .call f)
    : f.chunk.Closed s.store.symbols :=
  closed.store.values _ _ (effect_call effect).2

theorem Closed.body {s : State} (closed : s.Closed) {i : Instruction} {f : Function}
    (effect : s.effect i = .call f) {body : List Instruction}
    (decodes : f.chunk.instructions = .ok body)
    : ∀ j ∈ body, j.Closed s.store.symbols := by
  obtain ⟨code, encodes, instructions⟩ := closed.call effect
  cases encodes.instructions_eq.symm.trans decodes
  exact instructions

end State

end StackText
