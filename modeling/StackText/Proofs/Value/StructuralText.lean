import StackText.Value.Render

/-! The text of a value by recursion on its halves, and the renderer's list of pending pieces, which
comes to the same text. Each value is written out before what was pending behind it is touched, in
a number of turns that its nodes determine.
-/

namespace StackText.Value

/-- How a value with a text of its own is written inside a pair: only a string is quoted there. -/
def enclosed : Value → String → String
  | .str text, _ => String.ofList (quoteString text)
  | _, own => own

/-- The text of a value: that of an atom, or the texts of both halves between the marks of a pair.
-/
def spelled : Value → String
  | .pair _ l r => "(" ++ l.enclosed l.spelled ++ " . " ++ r.enclosed r.spelled ++ ")"
  | v => v.atomText

/-- The text of a value inside a pair. -/
def spelledInside (v : Value) : String := v.enclosed v.spelled

theorem spelledInside_pair (serial : Nat) (l r : Value)
    : (Value.pair serial l r).spelledInside
      = "(" ++ l.spelledInside ++ " . " ++ r.spelledInside ++ ")" :=
  rfl

/-- One turn of the renderer: a pair gives way to its halves and marks, all else is written. -/
def turn (done : String) (work : List Pending) : Pending → String × List Pending
  | .text s => (done ++ s, work)
  | .value (.pair _ l r) =>
      (done ++ "(", .value l :: .text " . " :: .value r :: .text ")" :: work)
  | .value (.str text) => (done ++ String.ofList (quoteString text), work)
  | .value v => (done ++ v.atomText, work)

/-- What is written and what is pending after a number of turns. There are no turns without work.
-/
def afterTurns : Nat → String → List Pending → Option (String × List Pending)
  | 0, done, work => some (done, work)
  | _ + 1, _, [] => none
  | n + 1, done, p :: work => afterTurns n (turn done work p).1 (turn done work p).2

theorem renderAll_cons (done : String) (p : Pending) (work : List Pending)
    : renderAll done (p :: work) = renderAll (turn done work p).1 (turn done work p).2 := by
  cases p with
  | text s => rw [renderAll, turn]
  | value v => cases v <;> simp [renderAll, turn]

/-- Turns lead to the same text as the renderer does without a stop. -/
theorem renderAll_of_afterTurns {n : Nat} {done text : String} {work left : List Pending}
    (turned : afterTurns n done work = some (text, left))
    : renderAll done work = renderAll text left := by
  fun_induction afterTurns n done work with
  | case1 => cases turned; rfl
  | case2 => cases turned
  | case3 n done p work ih => rw [renderAll_cons, ih turned]

theorem afterTurns_add {m : Nat} {done text : String} {work left : List Pending}
    (turned : afterTurns m done work = some (text, left)) (n : Nat)
    : afterTurns (m + n) done work = afterTurns n text left := by
  fun_induction afterTurns m done work with
  | case1 => cases turned; rw [Nat.zero_add]
  | case2 => cases turned
  | case3 m done p work ih => rw [Nat.succ_add, afterTurns, ih turned]

/-- A value is written out in two turns for each node but one, with the work behind it untouched, by
induction on the value.
-/
theorem afterTurns_value (v : Value) (done : String) (work : List Pending)
    : afterTurns (2 * v.nodes - 1) done (.value v :: work)
      = some (done ++ v.spelledInside, work) := by
  induction v generalizing done work with
  | pair serial l r left right =>
      have turns : 2 * (l.nodes + r.nodes + 1) - 1
          = (2 * l.nodes - 1 + (2 * r.nodes - 1 + 1 + 1)) + 1 := by
        have := l.nodes_pos
        have := r.nodes_pos
        omega
      calc
        afterTurns (2 * (Value.pair serial l r).nodes - 1) done (.value (.pair serial l r) :: work)
        _ = afterTurns (2 * l.nodes - 1 + (2 * r.nodes - 1 + 1 + 1)) (done ++ "(")
              (.value l :: .text " . " :: .value r :: .text ")" :: work) := by
          rw [nodes, turns]
          rfl
        _ = afterTurns (2 * r.nodes - 1 + 1 + 1) (done ++ "(" ++ l.spelledInside)
              (.text " . " :: .value r :: .text ")" :: work) :=
          afterTurns_add (left _ _) _
        _ = afterTurns (2 * r.nodes - 1 + 1) (done ++ "(" ++ l.spelledInside ++ " . ")
              (.value r :: .text ")" :: work) := rfl
        _ = afterTurns 1 (done ++ "(" ++ l.spelledInside ++ " . " ++ r.spelledInside)
              (.text ")" :: work) :=
          afterTurns_add (right _ _) _
        _ = some (done ++ (Value.pair serial l r).spelledInside, work) := by
          simp only [afterTurns, turn, spelledInside_pair, String.append_assoc]
  | _ => rfl

theorem renderAll_value (v : Value) (done : String) (work : List Pending)
    : renderAll done (.value v :: work) = renderAll (done ++ v.spelledInside) work :=
  renderAll_of_afterTurns (afterTurns_value v done work)

theorem render_of_ne_str {v : Value} (noString : ∀ text, v ≠ .str text)
    : v.render = v.spelledInside := by
  rw [render.eq_2 v noString, renderAll_value, renderAll, String.empty_append]

/-- A value is rendered as the recursion on its halves has it. Its loop ends after two turns for
each node but one, whatever was written before and is pending behind it.
-/
theorem render_eq_spelled (v : Value)
    : v.render = v.spelled
      ∧ ∀ done work,
          afterTurns (2 * v.nodes - 1) done (.value v :: work)
            = some (done ++ v.spelledInside, work)
          ∧ renderAll done (.value v :: work) = renderAll (done ++ v.spelledInside) work := by
  constructor
  · cases v with
    | str text => rfl
    | _ => exact render_of_ne_str (by simp)
  · intro done work
    exact ⟨afterTurns_value v done work, renderAll_value v done work⟩

end StackText.Value
