import StackText.Number.Literal
import StackText.Value.Basic

/-! The text of a value. A pair is written with a point between its halves; strings are bare on
their own and quoted inside a pair. Pairs are walked with a list of what is still to be written,
since they nest without bound.
-/

namespace StackText

/-- A function shows the slot it was compiled into. -/
def Function.text (f : Function) : String :=
  match f.id with
  | some id => s!"<func:{id}>"
  | none => "<func>"

namespace Value

/-- A string inside a pair: in double quotes, with every double quote written twice. -/
def quoteString (text : String) : List Char :=
  '\x22' :: text.toList.flatMap (fun c => if c = '\x22' then [c, c] else [c]) ++ ['\x22']

/-- The text of a value that is not a pair. -/
def atomText : Value → String
  | .nil => "nil"
  | .int n => Text.decimalInt n
  | .float x _ => FloatText.text x
  | .str text => text
  | .builtin b => "<magic:" ++ b.word ++ ">"
  | .func f => f.text
  | .pair .. => ""
  | .truth b => if b then "True" else "False"

/-- A piece of work of the renderer: a value inside a pair, or text to write as it is. -/
inductive Pending where
  | value (v : Value)
  | text (s : String)

/-- The number of pairs and atoms in a value. -/
def nodes : Value → Nat
  | .pair _ l r => l.nodes + r.nodes + 1
  | _ => 1

/-- Every value has a node. -/
theorem nodes_pos (v : Value)
    : 0 < v.nodes := by
  cases v <;> simp [nodes]

/-- How much writing is left: four units for each node and one for each ready text. -/
def Pending.weight : Pending → Nat
  | .value v => 4 * v.nodes
  | .text _ => 1

/-- Writes the pending pieces in order. The weight of the work falls at each step, since a pair
gives way to its halves and three texts.
-/
def renderAll (done : String) : List Pending → String
  | [] => done
  | .text s :: work => renderAll (done ++ s) work
  | .value (.pair _ l r) :: work =>
      renderAll (done ++ "(") (.value l :: .text " . " :: .value r :: .text ")" :: work)
  | .value (.str text) :: work => renderAll (done ++ String.ofList (quoteString text)) work
  | .value v :: work => renderAll (done ++ v.atomText) work
termination_by work => work.foldr (fun p rest => p.weight + rest) 0
decreasing_by
  all_goals simp only [List.foldr_cons, Pending.weight, nodes]
  · omega
  · omega
  · omega
  · have := nodes_pos v
    omega

/-- The text of a value, as it is printed. -/
def render : Value → String
  | .str text => text
  | v => renderAll "" [.value v]

end Value

end StackText
