import StackText.Code.Listing
import StackText.Proofs.Reader.Compilation

/-! Code with its blocks written out: where a block of the text is loaded, the code of the block
takes the place of the instruction. Such code mentions the names of a text in the order of the text.
-/

namespace StackText

-----------------------------------------------------------------------------------------
-- Writing out blocks
-----------------------------------------------------------------------------------------

namespace Instruction

/-- The opcode and the name of an instruction on a named slot. -/
def mention? (store : Store) (i : Instruction) : Option (Opcode × String) :=
  (store.name? i.id).map fun name => (i.op, name)

/-- The code of the block that an instruction loads, or else the instruction itself. -/
def writtenOut? (store : Store) (flat? : Chunk → Option (List Instruction)) (i : Instruction)
    : Option (List Instruction) :=
  match Listing.loadedBlock? store i with
  | .ok (some f) => flat? f.chunk
  | _ => some [i]

/-- The mentions of names in code, in order. -/
def mentions (store : Store) (code : List Instruction) : List (Opcode × String) :=
  code.filterMap (mention? store)

/-- (i.Named store) holds of an instruction that mentions a name, unless it is a load. -/
def Named (store : Store) (i : Instruction) : Prop :=
  i.op ≠ .load → ∃ name, i.mention? store = some (i.op, name)

end Instruction

namespace Chunk

/-- Code with its blocks written out, nested to the given depth. -/
def flatTo (store : Store) : Nat → Chunk → Option (List Instruction)
  | 0, _ => none
  | depth + 1, chunk =>
      match chunk.instructions with
      | .ok code =>
          (code.mapM (Instruction.writtenOut? store (flatTo store depth))).map List.flatten
      | .error _ => none

/-- Code with all its blocks written out. A block is compiled before the block around it, so the
number of slots bounds the depth of nesting.
-/
def flat? (store : Store) (chunk : Chunk) : Option (List Instruction) :=
  flatTo store (store.size + 1) chunk

end Chunk

-----------------------------------------------------------------------------------------
-- The names of a text
-----------------------------------------------------------------------------------------

/-- The opcode and the name of a node that stands for a variable. -/
def Node.mention? : Node → Option (Opcode × String)
  | .assign name => some (.assign, name)
  | .load name => some (.load, name)
  | .call name => some (.apply, name)
  | _ => none

theorem Term.mention?_node (term : Term)
    : term.node.mention? = term.reference? := by
  cases term <;> rfl

/-- An instruction that stands for a node loads the block, if the node is one, and otherwise
mentions the name that the node does. Only a load can go without a name.
-/
theorem Instruction.node?_cases {store : Store} {block? : Chunk → Option (List Node)}
    {i : Instruction} {node : Node} (found : i.node? store block? = some node)
    : (∃ f body,
        node = .block body
        ∧ Listing.loadedBlock? store i = .ok (some f)
        ∧ block? f.chunk = some body)
      ∨ (∀ body, node ≠ .block body)
        ∧ Listing.loadedBlock? store i = .ok none
        ∧ i.mention? store = node.mention?
        ∧ i.Named store := by
  obtain ⟨op, id⟩ := i
  cases named : store.name? id with
  | some name =>
      right
      cases op with
      | load | apply | assign =>
          simp only [node?, named, Option.some.injEq] at found
          subst found
          simp [Listing.loadedBlock?, mention?, named, Node.mention?, Named]
  | none =>
      cases op with
      | apply | assign => simp [node?, named] at found
      | load =>
          simp only [node?, named] at found
          split at found
          · next got =>
              cases found
              simp [Listing.loadedBlock?, mention?, named, got, Node.mention?, Named]
          · next got =>
              cases found
              simp [Listing.loadedBlock?, mention?, named, got, Node.mention?, Named]
          · next got =>
              cases found
              simp [Listing.loadedBlock?, mention?, named, got, Node.mention?, Named]
          · next f got =>
              obtain ⟨body, inside, rfl⟩ := Option.map_eq_some_iff.mp found
              exact .inl ⟨f, body, rfl, by simp [Listing.loadedBlock?, named, got], inside⟩
          · cases found

/-- The code of a leaf is one instruction that mentions the name of the leaf. -/
theorem Instruction.writtenOut?_leaf {store : Store} {block? : Chunk → Option (List Node)}
    {i : Instruction} {node : Node} (found : i.node? store block? = some node)
    (leaf : ∀ body, node ≠ .block body) (flat? : Chunk → Option (List Instruction))
    : i.writtenOut? store flat? = some [i]
      ∧ i.mention? store = node.mention?
      ∧ i.Named store := by
  rcases node?_cases found with ⟨_, body, isBlock, _⟩ | ⟨_, loads, mentions⟩
  · exact absurd isBlock (leaf body)
  · exact ⟨by rw [writtenOut?, loads], mentions⟩

theorem exists_cons_of_mapM {α β : Type} {f : α → Option β} {list : List α} {b : β}
    {results : List β} (mapped : list.mapM f = some (b :: results))
    : ∃ a rest, list = a :: rest ∧ f a = some b ∧ rest.mapM f = some results := by
  cases list with
  | nil => cases mapped
  | cons a rest =>
      simp only [List.mapM_cons, Option.bind_eq_bind, Option.bind_eq_some_iff] at mapped
      obtain ⟨_, here, _, later, same⟩ := mapped
      cases same
      exact ⟨a, rest, rfl, here, later⟩

/-- Code that stands for nodes can be written out if all blocks in it can, and mentions the names
of the tokens that spell the nodes, by induction on the spelling.
-/
theorem Token.Spells.writtenOut {store : Store} {block? : Chunk → Option (List Node)}
    {flat? : Chunk → Option (List Instruction)}
    (blocks
      : ∀ chunk body inside,
          block? chunk = some body
          → Spells inside body
          → ∃ flat,
              flat? chunk = some flat
              ∧ Instruction.mentions store flat = mentions inside
              ∧ ∀ i ∈ flat, i.Named store)
    {tokens : List Token} {nodes : List Node} (spells : Spells tokens nodes)
    {code : List Instruction} (stands : code.mapM (Instruction.node? store block?) = some nodes)
    : ∃ parts,
        code.mapM (Instruction.writtenOut? store flat?) = some parts
        ∧ Instruction.mentions store parts.flatten = mentions tokens
        ∧ ∀ i ∈ parts.flatten, i.Named store := by
  induction spells generalizing code with
  | nil =>
      have empty : code = [] := by
        cases code with
        | nil => rfl
        | cons i code =>
            simp only [List.mapM_cons, Option.bind_eq_bind, Option.bind_eq_some_iff] at stands
            obtain ⟨_, _, _, _, same⟩ := stands
            cases same
      exact ⟨[], by simp [empty], rfl, by simp⟩
  | @word letters term tokens nodes meaning _ ih =>
      obtain ⟨i, rest, rfl, here, later⟩ := exists_cons_of_mapM stands
      obtain ⟨parts, written, names, named⟩ := ih later
      obtain ⟨single, name, here⟩ := Instruction.writtenOut?_leaf here
        (by cases term <;> simp [Term.node]) flat?
      have mention : Token.mention? (.word letters) = i.mention? store := by
        rw [name, Term.mention?_node]
        simp [Token.mention?, meaning, Except.toOption]
      refine ⟨[i] :: parts, by simp [single, written], ?_, List.forall_mem_cons.mpr ⟨here, named⟩⟩
      simp only [List.flatten_cons, List.singleton_append, Instruction.mentions, mentions,
        List.filterMap_cons, mention] at names ⊢
      rw [names]
  | @string tokens nodes text _ ih =>
      obtain ⟨i, rest, rfl, here, later⟩ := exists_cons_of_mapM stands
      obtain ⟨parts, written, names, named⟩ := ih later
      obtain ⟨single, name, here⟩ := Instruction.writtenOut?_leaf here (by simp) flat?
      refine ⟨[i] :: parts, by simp [single, written], ?_, List.forall_mem_cons.mpr ⟨here, named⟩⟩
      simp only [List.flatten_cons, List.singleton_append, Instruction.mentions, mentions,
        List.filterMap_cons, name, Node.mention?, Token.mention?] at names ⊢
      exact names
  | @block inside body tokens nodes group _ _ ih =>
      obtain ⟨i, rest, rfl, here, later⟩ := exists_cons_of_mapM stands
      obtain ⟨parts, written, names, named⟩ := ih later
      rcases Instruction.node?_cases here with ⟨f, _, same, loads, stored⟩ | ⟨leaf, _⟩
      · cases same
        obtain ⟨flat, found, within, all⟩ := blocks f.chunk body inside stored group
        refine ⟨flat :: parts, by simp [Instruction.writtenOut?, loads, found, written], ?_,
          List.forall_mem_append.mpr ⟨all, named⟩⟩
        simp only [List.flatten_cons, Instruction.mentions, mentions, List.filterMap_cons,
          List.filterMap_append, Token.mention?] at names within ⊢
        rw [within, names]
      · exact absurd rfl (leaf body)

/-- Code that stands for nodes can be written out to the same depth, by induction on the depth. -/
theorem Chunk.flatTo_of_nodesTo {store : Store} {depth : Nat} {chunk : Chunk} {nodes : List Node}
    (stands : chunk.nodesTo store depth = some nodes) {tokens : List Token}
    (spells : Token.Spells tokens nodes)
    : ∃ flat,
        chunk.flatTo store depth = some flat
        ∧ Instruction.mentions store flat = Token.mentions tokens
        ∧ ∀ i ∈ flat, i.Named store := by
  induction depth generalizing chunk nodes tokens with
  | zero => cases stands
  | succ depth ih =>
      rw [nodesTo] at stands
      split at stands
      · next code decodes =>
          obtain ⟨parts, written, mentions⟩ :=
            spells.writtenOut (fun _ _ _ stored group => ih stored group) stands
          refine ⟨parts.flatten, ?_, mentions⟩
          rw [flatTo, decodes]
          simp [written]
      · cases stands

/-- The blocks of compiled code can all be written out, and what is left mentions the names of the
text in their order.
-/
theorem Reader.flat?_of_compile {store : Store} (formed : store.WellFormed) {text : List Char}
    {final : Bool} {chunk : Chunk}
    (compiled : (fresh.compile store text final).result = .ok chunk)
    : ∃ flat,
        chunk.flat? (fresh.compile store text final).store = some flat
        ∧ Instruction.mentions (fresh.compile store text final).store flat
          = Token.mentions (Token.sequence text)
        ∧ ∀ i ∈ flat, i.Named (fresh.compile store text final).store := by
  obtain ⟨nodes, spells, stands⟩ := nodes?_of_compile formed compiled
  exact Chunk.flatTo_of_nodesTo stands spells

end StackText
