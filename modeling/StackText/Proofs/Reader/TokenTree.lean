import StackText.Reader.Token

/-! The tree that a sequence of tokens stands for. Each word and string is a leaf, each bracketed
group a branch; a sequence has at most one tree.
-/

namespace StackText

/-- A node of a program: an assignment, load or call of a variable, a literal, or a block. -/
inductive Node where
  | assign (name : String)
  | load (name : String)
  | call (name : String)
  | number (n : Number)
  | string (text : String)
  | block (body : List Node)

/-- The node that a word stands for. -/
def Term.node : Term → Node
  | .assign name => .assign name
  | .load name => .load name
  | .call name => .call name
  | .number n => .number n

namespace Token

/-- (Spells tokens nodes) holds if the tokens are those of the nodes in order: one word or string
for each leaf, and brackets around the tokens of each block.
-/
inductive Spells : List Token → List Node → Prop
  | nil
    : Spells [] []
  | word {letters term tokens nodes} (meaning : Term.ofWord letters = .ok term)
    (later : Spells tokens nodes)
    : Spells (.word letters :: tokens) (term.node :: nodes)
  | string {tokens nodes} (text) (later : Spells tokens nodes)
    : Spells (.string text :: tokens) (.string text :: nodes)
  | block {inside body tokens nodes} (group : Spells inside body)
    (later : Spells tokens nodes)
    : Spells (.openBlock :: (inside ++ .closeBlock :: tokens)) (.block body :: nodes)

/-- Tokens behind tokens spell nodes behind nodes. -/
theorem Spells.append {front back : List Token} {nodes more : List Node}
    (spells : Spells front nodes) (later : Spells back more)
    : Spells (front ++ back) (nodes ++ more) := by
  induction spells with
  | nil => exact later
  | word meaning _ ih => exact .word meaning ih
  | string text _ ih => exact .string text ih
  | block group _ _ ih => simpa using Spells.block group ih

-----------------------------------------------------------------------------------------
-- One tree for each sequence
-----------------------------------------------------------------------------------------

/-- Places a token behind the nodes of the innermost open block. The first list holds the nodes of
the blocks around it, from the inside out.
-/
def place : List (List Node) × List Node → Token → Option (List (List Node) × List Node)
  | (outer, nodes), .openBlock => some (nodes :: outer, [])
  | (nodes :: outer, body), .closeBlock => some (outer, nodes ++ [.block body])
  | (outer, nodes), .string text => some (outer, nodes ++ [.string text])
  | (outer, nodes), .word letters =>
      match Term.ofWord letters with
      | .ok term => some (outer, nodes ++ [term.node])
      | .error _ => none
  | _, _ => none

/-- Placing tokens one by one gives the nodes that they spell, by induction on the spelling. -/
theorem Spells.foldlM_place {tokens : List Token} {nodes : List Node}
    (spells : Spells tokens nodes) (outer : List (List Node)) (before : List Node)
    : tokens.foldlM place (outer, before) = some (outer, before ++ nodes) := by
  induction spells generalizing outer before with
  | nil => simp
  | word meaning _ ih => simp [place, meaning, ih]
  | string text _ ih => simp [place, ih]
  | block _ _ groupIH laterIH => simp [place, groupIH, laterIH]

/-- Tokens spell at most one list of nodes. -/
theorem Spells.unique {tokens : List Token} {nodes others : List Node}
    (spells : Spells tokens nodes) (again : Spells tokens others)
    : nodes = others := by
  have same := (spells.foldlM_place [] []).symm.trans (again.foldlM_place [] [])
  simpa using same

-----------------------------------------------------------------------------------------
-- Balance
-----------------------------------------------------------------------------------------

/-- Balanced tokens: every string ends, no closing bracket comes before its opening one, and all
brackets are closed.
-/
structure Balanced (tokens : List Token) : Prop where
  terminated : ∀ rest, .unterminated rest ∉ tokens
  covered : ∀ front, front <+: tokens → front.count .closeBlock ≤ front.count .openBlock
  closed : tokens.count .openBlock = tokens.count .closeBlock

/-- The beginning of two lists in a row ends inside the first, or has all of the first in front. -/
theorem prefix_append_cases {part first second : List Token} (isPart : part <+: first ++ second)
    : part <+: first ∨ ∃ beyond, beyond <+: second ∧ part = first ++ beyond := by
  rcases List.prefix_or_prefix_of_prefix isPart (List.prefix_append first second) with
    within | ⟨beyond, rfl⟩
  · exact .inl within
  · exact .inr ⟨beyond, (List.prefix_append_right_inj first).mp isPart, rfl⟩

theorem balanced_nil : Balanced [] where
  terminated := by simp
  covered := by
    intro front isFront
    rw [List.prefix_nil.mp isFront]
    simp
  closed := rfl

/-- A token that is neither a bracket nor an open string is balanced. -/
theorem balanced_single {token : Token} (notOpen : token ≠ .openBlock)
    (notClose : token ≠ .closeBlock) (terminated : ∀ rest, token ≠ .unterminated rest)
    : Balanced [token] where
  terminated := by
    intro rest member
    exact terminated rest (List.mem_singleton.mp member).symm
  covered := by
    intro front isFront
    have none : [token].count .closeBlock = 0 := by simp [notClose]
    have bound := isFront.sublist.count_le .closeBlock
    omega
  closed := by simp [notOpen, notClose]

theorem Balanced.append {first second : List Token} (left : Balanced first)
    (right : Balanced second)
    : Balanced (first ++ second) where
  terminated := by
    intro rest member
    rcases List.mem_append.mp member with here | later
    · exact left.terminated rest here
    · exact right.terminated rest later
  covered := by
    intro front isFront
    rcases prefix_append_cases isFront with within | ⟨beyond, isBeyond, rfl⟩
    · exact left.covered front within
    · have bound := right.covered beyond isBeyond
      have total := left.closed
      simp only [List.count_append]
      omega
  closed := by
    simp only [List.count_append, left.closed, right.closed]

theorem Balanced.block {inside : List Token} (balanced : Balanced inside)
    : Balanced (.openBlock :: (inside ++ [.closeBlock])) where
  terminated := by
    intro rest member
    simp only [List.mem_cons, List.mem_append, reduceCtorEq, List.not_mem_nil, or_false, false_or]
      at member
    exact balanced.terminated rest member
  covered := by
    intro front isFront
    cases front with
    | nil => simp
    | cons token front =>
        obtain ⟨rfl, shorter⟩ := List.cons_prefix_cons.mp isFront
        rw [List.count_cons_self, List.count_cons_of_ne (by decide)]
        rcases prefix_append_cases shorter with within | ⟨beyond, isBeyond, rfl⟩
        · have bound := balanced.covered front within
          omega
        · have bound := isBeyond.sublist.count_le .closeBlock
          have one : [Token.closeBlock].count .closeBlock = 1 := rfl
          have total := balanced.closed
          simp only [List.count_append]
          omega
  closed := by
    have total := balanced.closed
    rw [List.count_cons_self, List.count_cons_of_ne (by decide), List.count_append,
      List.count_append, total]
    rfl

/-- Tokens that spell nodes are balanced, by induction on the spelling. -/
theorem Spells.balanced {tokens : List Token} {nodes : List Node} (spells : Spells tokens nodes)
    : Balanced tokens := by
  induction spells with
  | nil => exact balanced_nil
  | @word word term tokens nodes meaning _ ih =>
      have here : Balanced [.word word] := balanced_single (by simp) (by simp) (by simp)
      exact here.append ih
  | @string tokens nodes text _ ih =>
      have here : Balanced [.string text] := balanced_single (by simp) (by simp) (by simp)
      exact here.append ih
  | @block inside body tokens nodes _ _ groupIH laterIH =>
      have whole := groupIH.block.append laterIH
      rw [List.cons_append, List.append_assoc] at whole
      exact whole

/-- Every word among the tokens of nodes has a meaning. -/
theorem Spells.meaning {tokens : List Token} {nodes : List Node} (spells : Spells tokens nodes)
    {letters : List Char} (member : .word letters ∈ tokens)
    : ∃ term, Term.ofWord letters = .ok term := by
  induction spells with
  | nil => cases member
  | @word word term tokens nodes meaning _ ih =>
      rcases List.mem_cons.mp member with same | later
      · cases same
        exact ⟨term, meaning⟩
      · exact ih later
  | string text _ ih =>
      rcases List.mem_cons.mp member with same | later
      · cases same
      · exact ih later
  | block _ _ groupIH laterIH =>
      simp only [List.mem_cons, List.mem_append, reduceCtorEq, false_or] at member
      exact member.elim groupIH laterIH

end Token

end StackText
