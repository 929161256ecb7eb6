import StackText.Proofs.Machine.BigStep

/-! Slots behind those that code knows of. Closed code over a store does the same over the store
with more ids and slots behind, and leaves those slots as they are.
-/

namespace StackText

-----------------------------------------------------------------------------------------
-- Effects
-----------------------------------------------------------------------------------------

/-- The state with the further ids and slots of a larger store. -/
def State.extend (s : State) (larger : Store) : State :=
  { s with store := s.store.extend larger }

/-- The effect with further ids and slots. -/
def Effect.extend (larger : Store) : Effect → Effect
  | .next s => .next (s.extend larger)
  | .stop why s => .stop why (s.extend larger)
  | .call f => .call f

namespace Effect

variable {larger : Store} {effect : Effect}

theorem extend_eq_next {s : State} (extended : effect.extend larger = .next s)
    : ∃ small, effect = .next small ∧ s = small.extend larger := by
  cases effect <;> cases extended
  exact ⟨_, rfl, rfl⟩

theorem extend_eq_stop {why : Stop} {s : State}
    (extended : effect.extend larger = .stop why s)
    : ∃ small, effect = .stop why small ∧ s = small.extend larger := by
  cases effect <;> cases extended
  exact ⟨_, rfl, rfl⟩

theorem extend_eq_call {f : Function} (extended : effect.extend larger = .call f)
    : effect = .call f := by
  cases effect <;> cases extended
  rfl

end Effect

namespace State

variable {s : State} {larger : Store}

theorem perform_extend (b : Builtin)
    : (s.extend larger).perform b = (s.perform b).extend larger := by
  simp only [perform, extend]
  generalize b.run s.serial (s.stack.take b.arity).reverse s.console = ran
  obtain ⟨result, console⟩ := ran
  cases result <;> rfl

/-- A closed instruction does the same with more ids and slots. -/
theorem effect_extend
    (grows : s.store.symbols.names.toList <+: larger.symbols.names.toList) {i : Instruction}
    (closed : i.Closed s.store.symbols)
    : (s.extend larger).effect i = (s.effect i).extend larger := by
  obtain ⟨op, id⟩ := i
  have bound : id < s.store.size := Nat.lt_of_lt_of_eq closed.given s.store.covered.symm
  have fewer : s.store.size ≤ larger.size := by
    rw [Store.size, Store.size, s.store.covered, larger.covered]
    exact grows.length_le
  have found := Store.get?_extend_of_lt fewer bound
  have name : (s.extend larger).slotName id = s.slotName id := by
    simp only [slotName, Store.name?, SymbolTable.name?_natCast, extend, Store.extend]
    rw [SymbolTable.names_grown grows closed.given]
  cases op with
  | load =>
      simp only [effect, extend, found]
      cases s.store.get? id <;> rfl
  | apply =>
      simp only [effect, name]
      rw [show (s.extend larger).store.get? id = s.store.get? id from found]
      cases s.store.get? id with
      | none => rfl
      | some v =>
          cases v with
          | builtin b => exact perform_extend b
          | _ => rfl
  | assign =>
      have further : id < (s.store.extend larger).size := by
        rw [Store.size, Store.extend, Array.size_mapIdx]
        exact Nat.lt_of_lt_of_le bound fewer
      simp only [effect, name]
      rw [show (s.extend larger).stack = s.stack from rfl]
      cases s.stack with
      | nil => rfl
      | cons v stack =>
          simp only [extend, if_pos bound, if_pos further, Store.set_extend bound]
          rfl

end State

-----------------------------------------------------------------------------------------
-- Execution
-----------------------------------------------------------------------------------------

namespace ExecutesWithin

variable {limit room : Nat} {s last : State} {outcome : Option Stop}

/-- Closed code that is executed with more ids and slots is executed alike without them, and leaves
them as they are. The induction is on the execution.
-/
theorem restrict {larger : Store} {code : List Instruction}
    (within : ExecutesWithin limit room code (s.extend larger) outcome last)
    (closed : s.Closed) (instructions : ∀ i ∈ code, i.Closed s.store.symbols)
    (grows : s.store.symbols.names.toList <+: larger.symbols.names.toList)
    : ∃ small, last = small.extend larger
        ∧ ExecutesWithin limit room code s outcome small := by
  generalize start : s.extend larger = large at within
  induction within generalizing s with
  | done large => exact ⟨s, start.symm, .done s⟩
  | @next room i code large middle outcome last effect _ ih =>
      subst start
      rw [State.effect_extend grows (instructions i (by simp))] at effect
      obtain ⟨small, moves, rfl⟩ := Effect.extend_eq_next effect
      obtain ⟨smallClosed, same⟩ := closed.next moves
      obtain ⟨last, rfl, later⟩ := ih smallClosed
        (fun j member => same ▸ instructions j (by simp [member])) (same ▸ grows) rfl
      exact ⟨last, rfl, .next moves later⟩
  | @stop room i code large why last effect =>
      subst start
      rw [State.effect_extend grows (instructions i (by simp))] at effect
      obtain ⟨small, stops, rfl⟩ := Effect.extend_eq_stop effect
      exact ⟨small, rfl, .stop stops⟩
  | @lastCall room i large f body outcome last effect decodes _ ih =>
      subst start
      rw [State.effect_extend grows (instructions i (by simp))] at effect
      have effect := Effect.extend_eq_call effect
      obtain ⟨last, rfl, inner⟩ := ih closed (closed.body effect decodes) grows rfl
      exact ⟨last, rfl, .lastCall effect decodes inner⟩
  | @call room i code large f body middle outcome last effect decodes left _ _ ihInner ihLater =>
      subst start
      rw [State.effect_extend grows (instructions i (by simp))] at effect
      have effect := Effect.extend_eq_call effect
      obtain ⟨small, rfl, inner⟩ := ihInner closed (closed.body effect decodes) grows rfl
      obtain ⟨smallClosed, same⟩ := inner.closed closed
      obtain ⟨last, rfl, later⟩ := ihLater smallClosed
        (fun j member => same ▸ instructions j (by simp [member])) (same ▸ grows) rfl
      exact ⟨last, rfl, .call effect decodes left inner later⟩
  | @callStop room i code large f body why last effect decodes left _ ih =>
      subst start
      rw [State.effect_extend grows (instructions i (by simp))] at effect
      have effect := Effect.extend_eq_call effect
      obtain ⟨last, rfl, inner⟩ := ih closed (closed.body effect decodes) grows rfl
      exact ⟨last, rfl, .callStop effect decodes left inner⟩
  | @tooDeep i code large f effect left =>
      subst start
      rw [State.effect_extend grows (instructions i (by simp))] at effect
      exact ⟨s, rfl, .tooDeep (Effect.extend_eq_call effect) left⟩

end ExecutesWithin

end StackText
