import Mathlib
import StackText.Proofs.Reader.Conclusion
import StackText.Proofs.Reader.TokenTree

/-! Compiling keeps the structure of the text. Exactly the balanced texts compile, and the nodes
that can be read back from the code and the store are those that the tokens spell.
-/

namespace StackText

-----------------------------------------------------------------------------------------
-- Reading nodes back from code
-----------------------------------------------------------------------------------------

/-- The node that an instruction stands for. An instruction on a named slot shows the name; a load
from an unnamed slot shows the literal or the block in the slot.
-/
def Instruction.node? (store : Store) (block? : Chunk → Option (List Node)) (i : Instruction)
    : Option Node :=
  match store.name? i.id, i.op with
  | some name, .assign => some (.assign name)
  | some name, .load => some (.load name)
  | some name, .apply => some (.call name)
  | none, .load =>
      match store.get? i.id with
      | some (.int n) => some (.number (.int n))
      | some (.float x _) => some (.number (.float x))
      | some (.str text) => some (.string text)
      | some (.func f) => (block? f.chunk).map .block
      | _ => none
  | none, _ => none

namespace Chunk

/-- The nodes that code stands for, with blocks nested to the given depth. -/
def nodesTo (store : Store) : Nat → Chunk → Option (List Node)
  | 0, _ => none
  | depth + 1, chunk =>
      match chunk.instructions with
      | .ok code => code.mapM (Instruction.node? store (nodesTo store depth))
      | .error _ => none

/-- The nodes that code stands for. A block is compiled before the block around it, so the number
of slots bounds the depth of nesting.
-/
def nodes? (store : Store) (chunk : Chunk) : Option (List Node) :=
  nodesTo store (store.size + 1) chunk

end Chunk

/-- A function that is defined wherever another is maps at least the same lists. -/
theorem mapM_some_of_mapM_some {α β : Type} {f g : α → Option β}
    (more : ∀ a b, f a = some b → g a = some b) {list : List α} {results : List β}
    (mapped : list.mapM f = some results)
    : list.mapM g = some results := by
  induction list generalizing results with
  | nil => exact mapped
  | cons a list ih =>
      simp only [List.mapM_cons, Option.bind_eq_bind, Option.bind_eq_some_iff] at mapped ⊢
      obtain ⟨first, here, rest, there, done⟩ := mapped
      exact ⟨first, more a first here, rest, ih there, done⟩

/-- What an instruction stands for does not change as the store grows. -/
theorem Instruction.node?_grows {old new : Store} (grows : old.Grows new)
    {block? more? : Chunk → Option (List Node)}
    (more : ∀ chunk nodes, block? chunk = some nodes → more? chunk = some nodes)
    {i : Instruction} {node : Node} (found : i.node? old block? = some node)
    : i.node? new more? = some node := by
  obtain ⟨op, id⟩ := i
  cases named : old.name? id with
  | some name =>
      have known := SymbolTable.lt_size_of_name? named
      cases op <;> simpa [node?, named, grows.name? known] using found
  | none =>
      cases op with
      | apply | assign => simp [node?, named] at found
      | load =>
          cases got : old.get? id with
          | none => simp [node?, named, got] at found
          | some v =>
              have known : id < old.symbols.size := by
                rw [← Store.covered]
                exact (Array.getElem?_eq_some_iff.mp got).1
              simp only [node?, named, got, grows.name? known, grows.get? got] at found ⊢
              cases v with
              | func f =>
                  obtain ⟨body, read, rfl⟩ := Option.map_eq_some_iff.mp found
                  exact Option.map_eq_some_iff.mpr ⟨body, more _ _ read, rfl⟩
              | _ => exact found

namespace Chunk

/-- The nodes of code do not change as the store grows and blocks may nest deeper. -/
theorem nodesTo_grows {old new : Store} (grows : old.Grows new) {depth deeper : Nat}
    (bound : depth ≤ deeper) {chunk : Chunk} {nodes : List Node}
    (found : chunk.nodesTo old depth = some nodes)
    : chunk.nodesTo new deeper = some nodes := by
  induction depth generalizing deeper chunk nodes with
  | zero => cases found
  | succ depth ih =>
      obtain ⟨deeper, rfl⟩ : ∃ n, deeper = n + 1 := ⟨deeper - 1, by omega⟩
      rw [nodesTo] at found ⊢
      split at found
      · exact mapM_some_of_mapM_some
          (fun i node => Instruction.node?_grows grows
            (fun chunk nodes => ih (by omega)))
          found
      · cases found

/-- (chunk.Decodes store nodes) holds if the chunk consists of instructions that stand for the
nodes.
-/
def Decodes (store : Store) (chunk : Chunk) (nodes : List Node) : Prop :=
  ∃ code,
    chunk.Encodes code
    ∧ code.mapM (Instruction.node? store (nodesTo store store.size)) = some nodes

theorem Decodes.nodes?_eq {store : Store} {chunk : Chunk} {nodes : List Node}
    (decodes : chunk.Decodes store nodes)
    : chunk.nodes? store = some nodes := by
  obtain ⟨code, encodes, mapped⟩ := decodes
  rw [nodes?, nodesTo, encodes.instructions_eq]
  exact mapped

theorem Decodes.empty (store : Store)
    : Decodes store {} [] :=
  ⟨[], .empty, rfl⟩

theorem Decodes.grows {old new : Store} (grows : old.Grows new) {chunk : Chunk}
    {nodes : List Node} (decodes : chunk.Decodes old nodes)
    : chunk.Decodes new nodes := by
  obtain ⟨code, encodes, mapped⟩ := decodes
  refine ⟨code, encodes, mapM_some_of_mapM_some (fun i node => ?_) mapped⟩
  refine Instruction.node?_grows grows (fun chunk nodes => nodesTo_grows grows ?_)
  rw [Store.size, Store.size, Store.covered, Store.covered]
  exact grows.size_le

theorem Decodes.push {store : Store} {chunk : Chunk} {nodes : List Node}
    (decodes : chunk.Decodes store nodes) {i : Instruction} (fits : i.id < idLimit) {node : Node}
    (found : i.node? store (nodesTo store store.size) = some node)
    : (chunk.push i).Decodes store (nodes ++ [node]) := by
  obtain ⟨code, encodes, mapped⟩ := decodes
  refine ⟨code ++ [i], encodes.push fits, ?_⟩
  simp [List.mapM_append, mapped, found]

end Chunk

/-- A load of a new slot stands for the value that was put there. -/
theorem Store.node?_alloc (store : Store) (v : Value)
    (block? : Chunk → Option (List Node))
    : Instruction.node? (store.alloc v).2 block? ⟨.load, store.symbols.size⟩
      = match v with
        | .int n => some (.number (.int n))
        | .float x _ => some (.number (.float x))
        | .str text => some (.string text)
        | .func f => (block? f.chunk).map .block
        | _ => none := by
  have unnamed := store.name?_alloc v
  have found : (store.alloc v).2.get? store.symbols.size = some v := by
    simp [alloc_eq, Store.get?, ← Store.covered]
  simp only [Instruction.node?, unnamed, found]
  cases v <;> rfl

/-- An instruction on the slot of a name shows the name. -/
theorem Store.node?_intern {store : Store} (formed : store.WellFormed) {term : Term} {op : Opcode}
    {name : String} (refers : term.reference? = some (op, name))
    (block? : Chunk → Option (List Node))
    : Instruction.node? (store.intern name).2 block? ⟨op, (store.intern name).1⟩
      = some term.node := by
  have named := formed.name?_intern name
  cases term with
  | number n => cases refers
  | assign _ | load _ | call _ =>
      cases refers
      simp [Instruction.node?, named, Term.node]

-----------------------------------------------------------------------------------------
-- The code of an unfinished text
-----------------------------------------------------------------------------------------

namespace Draft

open Token

/-- (Holds store tokens outer chunk) holds if the tokens spell the nodes of the code of all open
blocks: those of the outermost block first, then an opening bracket before those of each block
inside. The innermost block is (chunk).
-/
inductive Holds (store : Store) : List Token → List Chunk → Chunk → Prop
  | top {tokens nodes chunk} (spells : Spells tokens nodes) (decodes : chunk.Decodes store nodes)
    : Holds store tokens [] chunk
  | inner {before outer around tokens nodes chunk} (enclosing : Holds store before outer around)
    (spells : Spells tokens nodes) (decodes : chunk.Decodes store nodes)
    : Holds store (before ++ .openBlock :: tokens) (around :: outer) chunk

theorem Holds.grows {old new : Store} (grows : old.Grows new) {tokens : List Token}
    {outer : List Chunk} {chunk : Chunk}
    (holds : Holds old tokens outer chunk)
    : Holds new tokens outer chunk := by
  induction holds with
  | top spells decodes => exact .top spells (decodes.grows grows)
  | inner _ spells decodes ih => exact .inner ih spells (decodes.grows grows)

/-- An instruction for the nodes of more tokens holds these as well. -/
theorem Holds.push {store : Store} {tokens more : List Token} {outer : List Chunk}
    {chunk : Chunk} (holds : Holds store tokens outer chunk) {i : Instruction}
    (fits : i.id < idLimit) {node : Node} (spells : Spells more [node])
    (found : i.node? store (Chunk.nodesTo store store.size) = some node)
    : Holds store (tokens ++ more) outer (chunk.push i) := by
  cases holds with
  | top before decodes => exact .top (before.append spells) (decodes.push fits found)
  | inner enclosing before decodes =>
      simpa using Holds.inner enclosing (before.append spells) (decodes.push fits found)

/-- The innermost of the open blocks holds a group of its own. -/
theorem Holds.split {store : Store} {tokens : List Token} {around : Chunk} {outer : List Chunk}
    {block : Chunk} (holds : Holds store tokens (around :: outer) block)
    : ∃ before inside body,
        tokens = before ++ .openBlock :: inside
        ∧ Spells inside body
        ∧ block.Decodes store body
        ∧ Holds store before outer around := by
  cases holds with
  | inner enclosing spells decodes => exact ⟨_, _, _, rfl, spells, decodes, enclosing⟩

theorem Holds.nodes {store : Store} {tokens : List Token} {chunk : Chunk}
    (holds : Holds store tokens [] chunk)
    : ∃ nodes, Spells tokens nodes ∧ chunk.Decodes store nodes := by
  cases holds with
  | top spells decodes => exact ⟨_, spells, decodes⟩

/-- A token that compiles leaves code that holds it behind the tokens before, by cases on what
the token does.
-/
theorem Compiles.holds {draft next : Draft} {token : Token} (compiles : Compiles draft token next)
    (formed : draft.store.WellFormed) {tokens : List Token}
    (holds : Holds draft.store tokens draft.outer draft.chunk)
    : Holds next.store (tokens ++ [token]) next.outer next.chunk := by
  have grows := compiles.grows
  cases compiles with
  | openBlock => exact .inner holds .nil (Chunk.Decodes.empty _)
  | @closeBlock store chunk outer block fits =>
      obtain ⟨before, inside, body, rfl, spells, decodes, enclosing⟩ := holds.split
      have group : Spells (.openBlock :: (inside ++ [.closeBlock])) [.block body] :=
        .block spells .nil
      have room : store.size + 1 ≤ (store.alloc (blockValue block store.symbols.size)).2.size := by
        simp [Store.alloc_eq, Store.size]
      have deeper := Chunk.nodesTo_grows grows room decodes.nodes?_eq
      rw [List.append_assoc]
      refine (enclosing.grows grows).push fits group ?_
      exact (Store.node?_alloc _ _ _).trans (Option.map_eq_some_iff.mpr ⟨body, deeper, rfl⟩)
  | string text fits =>
      exact (holds.grows grows).push fits (.string text .nil)
        (Store.node?_alloc _ _ _)
  | @number draft letters n meaning fits =>
      refine (holds.grows grows).push fits (.word meaning .nil) ?_
      rw [withLiteral, Store.node?_alloc]
      cases n <;> rfl
  | name meaning refers fits =>
      exact (holds.grows grows).push fits (.word meaning .nil)
        (Store.node?_intern formed refers _)

/-- Tokens that compile leave code that holds them, by induction on the tokens. -/
theorem CompilesAll.holds {draft next : Draft} {later : List Token}
    (compiles : CompilesAll draft later next) (formed : draft.store.WellFormed)
    {tokens : List Token} (holds : Holds draft.store tokens draft.outer draft.chunk)
    : Holds next.store (tokens ++ later) next.outer next.chunk := by
  induction compiles generalizing tokens with
  | nil => simpa using holds
  | cons first _ ih =>
      simpa using ih (first.wellFormed formed) (first.holds formed holds)

-----------------------------------------------------------------------------------------
-- Brackets
-----------------------------------------------------------------------------------------

/-- A token that compiles changes the number of open blocks as its bracket says. -/
theorem Compiles.depth {draft next : Draft} {token : Token} (compiles : Compiles draft token next)
    : next.outer.length + [token].count .closeBlock
      = draft.outer.length + [token].count .openBlock := by
  cases compiles with
  | openBlock => simp
  | closeBlock fits => simp [withLiteral]
  | string text fits => simp [withLiteral]
  | number meaning fits => simp [withLiteral]
  | name meaning refers fits => simp [withName]

/-- The number of open blocks counts brackets, by induction on the tokens. -/
theorem CompilesAll.depth {draft next : Draft} {tokens : List Token}
    (compiles : CompilesAll draft tokens next)
    : next.outer.length + tokens.count .closeBlock
      = draft.outer.length + tokens.count .openBlock := by
  induction compiles with
  | nil => rfl
  | @cons draft token middle tokens next first _ ih =>
      have here := first.depth
      rw [← List.singleton_append, List.count_append, List.count_append]
      omega

/-- Tokens that compile contain no unterminated string. -/
theorem CompilesAll.terminated {draft next : Draft} {tokens : List Token}
    (compiles : CompilesAll draft tokens next) (rest : List Char)
    : .unterminated rest ∉ tokens := by
  induction compiles with
  | nil => simp
  | cons first _ ih =>
      intro member
      rcases List.mem_cons.mp member with rfl | later
      · cases first
      · exact ih later

/-- The front part of tokens that compile compiles. -/
theorem CompilesAll.front {draft next : Draft} {tokens front : List Token}
    (compiles : CompilesAll draft tokens next) (isFront : front <+: tokens)
    : ∃ middle, CompilesAll draft front middle := by
  induction compiles generalizing front with
  | nil draft =>
      rw [List.prefix_nil.mp isFront]
      exact ⟨draft, .nil draft⟩
  | @cons draft token middle tokens next first _ ih =>
      cases front with
      | nil => exact ⟨draft, .nil draft⟩
      | cons t front =>
          obtain ⟨rfl, shorter⟩ := List.cons_prefix_cons.mp isFront
          obtain ⟨last, compiles⟩ := ih shorter
          exact ⟨last, .cons first compiles⟩

/-- Tokens that compile from no open block to no open block are balanced. -/
theorem CompilesAll.balanced {draft next : Draft} {tokens : List Token}
    (compiles : CompilesAll draft tokens next) (outside : draft.outer = [])
    (closed : next.outer = [])
    : Balanced tokens := by
  refine ⟨compiles.terminated, ?_, ?_⟩
  · intro front isFront
    obtain ⟨middle, reached⟩ := compiles.front isFront
    have depth := reached.depth
    rw [outside] at depth
    simp only [List.length_nil] at depth
    omega
  · have depth := compiles.depth
    rw [outside, closed] at depth
    simpa using depth.symm

end Draft

-----------------------------------------------------------------------------------------
-- Whole texts
-----------------------------------------------------------------------------------------

namespace Reader

open Token

/-- A text that compiles has passed all its tokens and closed all its blocks. -/
theorem compilesAll_of_compile {store : Store} {text : List Char} {final : Bool} {chunk : Chunk}
    (compiled : (fresh.compile store text final).result = .ok chunk)
    : ∃ draft,
        Draft.CompilesAll ⟨store, [], {}⟩ (sequence text) draft
        ∧ draft.outer = []
        ∧ draft.chunk = chunk
        ∧ draft.store = (fresh.compile store text final).store := by
  have whole : fresh.compile store text final
      = conclude final text (Draft.tokens ⟨store, [], {}⟩ (sequence text)) :=
    compile_eq fresh store text final
  rw [whole] at compiled ⊢
  cases read : Draft.tokens ⟨store, [], {}⟩ (sequence text) with
  | mk draft stoppage =>
      rw [read] at compiled
      cases stoppage with
      | none =>
          simp only [conclude, unfinished] at compiled ⊢
          split at compiled
          · next closed =>
              cases compiled
              refine ⟨draft, Draft.compilesAll_of_tokens read, List.isEmpty_iff.mp closed, rfl, ?_⟩
              rw [if_pos closed]
          · cases final <;> cases compiled
      | some stoppage =>
          cases stoppage with
          | unterminated rest => cases final <;> cases compiled
          | strayClose | numeral fault | code fault => cases compiled

/-- The nodes that are read back from compiled code are those that the tokens spell. -/
theorem nodes?_of_compile {store : Store} (formed : store.WellFormed) {text : List Char}
    {final : Bool} {chunk : Chunk}
    (compiled : (fresh.compile store text final).result = .ok chunk)
    : ∃ nodes,
        Spells (sequence text) nodes
        ∧ chunk.nodes? (fresh.compile store text final).store = some nodes := by
  obtain ⟨draft, compiles, closed, rfl, kept⟩ := compilesAll_of_compile compiled
  have holds := compiles.holds formed (.top .nil (Chunk.Decodes.empty store))
  rw [closed, List.nil_append] at holds
  obtain ⟨nodes, spells, decodes⟩ := holds.nodes
  exact ⟨nodes, spells, kept ▸ decodes.nodes?_eq⟩

/-- Whatever stops a text from compiling at its end unbalances its tokens, as long as the words
that have the shape of numbers can be read and there is room for the ids.
-/
theorem malformed_of_not_compiled {store : Store} (formed : store.WellFormed) {text : List Char}
    (numerals
      : ∀ letters, .word letters ∈ sequence text → ∀ fault, Term.ofWord letters ≠ .error fault)
    (room : (fresh.compile store text true).store.size ≤ idLimit)
    (refused : ∀ chunk, (fresh.compile store text true).result ≠ .ok chunk)
    : ¬Balanced (sequence text)
      ∧ ∃ what, (fresh.compile store text true).result = .error (.malformed what) := by
  have whole : fresh.compile store text true
      = conclude true text (Draft.tokens ⟨store, [], {}⟩ (sequence text)) :=
    compile_eq fresh store text true
  rw [whole] at room refused ⊢
  cases read : Draft.tokens ⟨store, [], {}⟩ (sequence text) with
  | mk draft stoppage =>
      rw [read] at room refused
      cases stoppage with
      | none =>
          have depth := (Draft.compilesAll_of_tokens read).depth
          simp only [conclude] at refused ⊢
          split at refused
          · exact absurd rfl (refused draft.chunk)
          · next inside =>
              rw [if_neg inside]
              refine ⟨fun balanced => inside ?_, _, rfl⟩
              have closed := balanced.closed
              rw [List.isEmpty_iff, ← List.length_eq_zero_iff]
              simp only [List.length_nil] at depth
              omega
      | some stoppage =>
          obtain ⟨front, token, back, before, split, reached, stopped⟩ :=
            Draft.tokens_stoppage read
          have compiles := Draft.compilesAll_of_tokens reached
          rcases Draft.token_stoppage stopped with
            ⟨rfl, outside, rfl⟩ | ⟨rest, rfl, rfl⟩ | ⟨letters, fault, rfl, unread, rfl⟩
            | ⟨fault, rfl⟩
          · refine ⟨fun balanced => ?_, _, rfl⟩
            have covered := balanced.covered (front ++ [.closeBlock]) ⟨back, by simp [split]⟩
            have depth := compiles.depth
            rw [outside] at depth
            simp only [List.count_append, List.length_nil] at covered depth
            simp at covered
            omega
          · exact ⟨fun balanced => balanced.terminated rest (by simp [split]), _, rfl⟩
          · exact absurd unread (numerals letters (by simp [split]) fault)
          · have beyond := Draft.size_of_token_code (compiles.wellFormed formed) stopped
            exact absurd room (Nat.not_le.mpr beyond)

/-- Exactly the balanced texts compile, and each to its own tree. Over a store that has room for
the ids, and where every word that has the shape of a number can be read, a text compiles exactly
if its tokens are balanced; otherwise it is malformed. The nodes that are read back from the code
are those that the tokens spell, so that texts with the same tokens give the same tree over any
stores. Witness: the code of all open blocks holds the tokens passed so far, and the number of open
blocks counts their brackets.
-/
theorem compile_iff_balanced {store : Store} (formed : store.WellFormed) {text : List Char}
    (numerals
      : ∀ letters, .word letters ∈ sequence text → ∀ fault, Term.ofWord letters ≠ .error fault)
    (room : (fresh.compile store text true).store.size ≤ idLimit)
    : let compiled := fresh.compile store text true
      ((∃ chunk, compiled.result = .ok chunk) ↔ Balanced (sequence text))
      ∧ (¬Balanced (sequence text) → ∃ what, compiled.result = .error (.malformed what))
      ∧ ∀ chunk,
          compiled.result = .ok chunk
          → ∃ nodes,
              Spells (sequence text) nodes
              ∧ chunk.nodes? compiled.store = some nodes
              ∧ ∀ (other : Store) (same : List Char) (code : Chunk),
                  other.WellFormed
                  → sequence same = sequence text
                  → (fresh.compile other same true).result = .ok code
                  → code.nodes? (fresh.compile other same true).store = some nodes := by
  intro compiled
  refine ⟨⟨?_, ?_⟩, ?_, ?_⟩
  · rintro ⟨chunk, ok⟩
    obtain ⟨draft, compiles, closed, _⟩ := compilesAll_of_compile ok
    exact compiles.balanced rfl closed
  · intro balanced
    apply Classical.byContradiction
    intro refused
    exact (malformed_of_not_compiled formed numerals room (fun chunk ok => refused ⟨chunk, ok⟩)).1
      balanced
  · intro unbalanced
    refine (malformed_of_not_compiled formed numerals room (fun chunk ok => unbalanced ?_)).2
    obtain ⟨draft, compiles, closed, _⟩ := compilesAll_of_compile ok
    exact compiles.balanced rfl closed
  · intro chunk ok
    obtain ⟨nodes, spells, read⟩ := nodes?_of_compile formed ok
    refine ⟨nodes, spells, read, ?_⟩
    intro other same code otherFormed sameTokens otherOk
    obtain ⟨others, otherSpells, otherRead⟩ := nodes?_of_compile otherFormed otherOk
    rw [sameTokens] at otherSpells
    rw [otherRead, spells.unique otherSpells]

/-- A block with a string and an assignment, and a call behind it. -/
theorem compile_nested_block
    : Balanced (sequence "( \x27a\x27 $=x ) x".toList)
      ∧ (fresh.compile .empty "( \x27a\x27 $=x ) x".toList true).result
          = .ok ⟨#[1, 0, 0, 0, 2, 2, 0, 0, 0, 1]⟩
      ∧ Chunk.nodes? (fresh.compile .empty "( \x27a\x27 $=x ) x".toList true).store
            ⟨#[1, 0, 0, 0, 2, 2, 0, 0, 0, 1]⟩
          = some [.block [.string "a", .assign "x"], .call "x"] := by
  have tokens : sequence "( \x27a\x27 $=x ) x".toList
      = [.openBlock, .string "a", .word ['$', '=', 'x'], .closeBlock, .word ['x']] := by
    cbv
  have code : (fresh.compile .empty "( \x27a\x27 $=x ) x".toList true).result
      = .ok ⟨#[1, 0, 0, 0, 2, 2, 0, 0, 0, 1]⟩ := by
    cbv
  have slots : (fresh.compile .empty "( \x27a\x27 $=x ) x".toList true).store.size = 3 := by
    cbv
  have assigned : Term.ofWord ['$', '=', 'x'] = .ok (.assign "x") := rfl
  have called : Term.ofWord ['x'] = .ok (.call "x") := by cbv
  have spelt : Spells (sequence "( \x27a\x27 $=x ) x".toList)
      [.block [.string "a", .assign "x"], .call "x"] := by
    rw [tokens]
    exact .block (.string "a" (.word assigned .nil)) (.word called .nil)
  have numerals : ∀ letters, .word letters ∈ sequence "( \x27a\x27 $=x ) x".toList
      → ∀ fault, Term.ofWord letters ≠ .error fault := by
    intro letters member fault
    rw [tokens] at member
    have either : letters = ['$', '=', 'x'] ∨ letters = ['x'] := by simpa using member
    rcases either with rfl | rfl
    · simp [assigned]
    · simp [called]
  obtain ⟨balanced, _, tree⟩ :=
    compile_iff_balanced Store.wellFormed_empty numerals (by rw [slots]; decide)
  obtain ⟨nodes, spells, read, _⟩ := tree _ code
  exact ⟨balanced.mp ⟨_, code⟩, code, spells.unique spelt ▸ read⟩

end Reader

end StackText
