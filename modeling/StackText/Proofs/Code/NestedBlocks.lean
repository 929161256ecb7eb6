import StackText.Code.Listing
import StackText.Proofs.Reader.LoadedOnce

/-! The blocks nested in compiled code, and the lines of its listing. In an orderly store every
block loads only older slots and is loaded at one place, so the blocks below some code form a tree;
a listing walks through it and lists each block once.
-/

namespace StackText

-----------------------------------------------------------------------------------------
-- Blocks within blocks
-----------------------------------------------------------------------------------------

namespace Store

/-- The block in a slot, if there is one. -/
def block? (store : Store) (id : Nat) : Option Function := (store.get? id).bind Value.block?

/-- (store.Within outer id) holds if a slot is the outer one, or is loaded by a block within it. -/
inductive Within (store : Store) (outer : Nat) : Nat → Prop
  | self
    : Within store outer outer
  | loaded {id inner f} (within : Within store outer id) (block : store.block? id = some f)
    (loads : inner ∈ f.chunk.loads store.symbols)
    : Within store outer inner

theorem block?_eq_some {store : Store} {id : Nat} {f : Function}
    : store.block? id = some f ↔ store.get? id = some (.func f) := by
  rw [block?, Option.bind_eq_some_iff]
  constructor
  · rintro ⟨v, found, block⟩
    cases v with
    | func g => cases block; exact found
    | _ => cases block
  · exact fun found => ⟨_, found, rfl⟩

theorem chunk_mem_of_block? {store : Store} {id : Nat} {f : Function}
    (block : store.block? id = some f)
    : f.chunk ∈ store.blocks.map Function.chunk :=
  List.mem_map.mpr ⟨f, mem_blocks.mpr ⟨id, block?_eq_some.mp block⟩, rfl⟩

variable {store : Store} {code : List Chunk} {chunk : Chunk}

namespace Orderly

theorem disjoint_of_lt (orderly : store.Orderly code) {id later : Nat} {f g : Function}
    (block : store.block? id = some f) (second : store.block? later = some g) (lt : id < later)
    : (f.chunk.loads store.symbols).Disjoint (g.chunk.loads store.symbols) := by
  have apart := (List.nodup_flatMap.mp orderly.once).2
  have blocks := (List.pairwise_append.mp apart).1
  rw [List.pairwise_map, Store.blocks, List.pairwise_filterMap, List.pairwise_iff_getElem] at blocks
  obtain ⟨bound, here⟩ := Array.getElem?_eq_some_iff.mp (block?_eq_some.mp block)
  obtain ⟨bound', there⟩ := Array.getElem?_eq_some_iff.mp (block?_eq_some.mp second)
  exact blocks id later bound bound' lt f (congrArg Value.block? here) g
    (congrArg Value.block? there)

/-- No two blocks load the same unnamed slot. -/
theorem eq_of_loads (orderly : store.Orderly code) {id other inner : Nat} {f g : Function}
    (block : store.block? id = some f) (second : store.block? other = some g)
    (loads : inner ∈ f.chunk.loads store.symbols) (again : inner ∈ g.chunk.loads store.symbols)
    : id = other := by
  rcases Nat.lt_trichotomy id other with lt | same | gt
  · exact (orderly.disjoint_of_lt block second lt loads again).elim
  · exact same
  · exact (orderly.disjoint_of_lt second block gt again loads).elim

theorem within_le (orderly : store.Orderly code) {outer id : Nat} (within : store.Within outer id)
    : id ≤ outer := by
  induction within with
  | self => exact Nat.le_refl _
  | loaded _ block loads ih =>
      have older := (orderly.placed _ _ (block?_eq_some.mp block)).older _ loads
      omega

/-- Of two blocks around a slot one is within the other, by induction on the way to the slot from
the first of them: the last step is the same from both.
-/
theorem within_comparable (orderly : store.Orderly code) {first second id : Nat}
    (within : store.Within first id) (also : store.Within second id)
    : store.Within first second ∨ store.Within second first := by
  induction within with
  | self => exact .inr also
  | loaded within block loads ih =>
      cases also with
      | self => exact .inl (within.loaded block loads)
      | loaded also around again =>
          cases orderly.eq_of_loads block around loads again
          exact ih also

end Orderly

/-- (store.Heads chunk) holds if a block that shares an unnamed slot with some code is not within
what the code loads.
-/
def Heads (store : Store) (chunk : Chunk) : Prop :=
  ∀ id f, store.block? id = some f →
    ∀ inner ∈ f.chunk.loads store.symbols, inner ∈ chunk.loads store.symbols →
      ∀ other ∈ chunk.loads store.symbols, other < id

namespace Orderly

theorem heads_of_mem (orderly : store.Orderly code) (member : chunk ∈ code)
    : store.Heads chunk := by
  intro id f block inner loads again
  have apart := (List.nodup_flatMap.mp orderly.once).2
  exact ((List.pairwise_append.mp apart).2.2 _ (chunk_mem_of_block? block) chunk member loads
    again).elim

theorem heads_of_block (orderly : store.Orderly code) {id : Nat} {f : Function}
    (block : store.block? id = some f)
    : store.Heads f.chunk := by
  intro around g second inner loads again other member
  cases orderly.eq_of_loads second block loads again
  exact (orderly.placed _ _ (block?_eq_some.mp block)).older other member

/-- What is within two slots that some code loads is within one. -/
theorem eq_of_within (orderly : store.Orderly code) (heads : store.Heads chunk)
    {first second id : Nat} (loads : first ∈ chunk.loads store.symbols)
    (also : second ∈ chunk.loads store.symbols) (within : store.Within first id)
    (again : store.Within second id)
    : first = second := by
  have inside {outer inner : Nat} (loads : outer ∈ chunk.loads store.symbols)
      (also : inner ∈ chunk.loads store.symbols) (within : store.Within outer inner)
      : outer = inner := by
    cases within with
    | self => rfl
    | loaded within block second =>
        have beyond := heads _ _ block inner second also outer loads
        have below := orderly.within_le within
        omega
  rcases orderly.within_comparable within again with down | up
  · exact inside loads also down
  · exact (inside also loads up).symm

end Orderly

-----------------------------------------------------------------------------------------
-- The tree of nested blocks
-----------------------------------------------------------------------------------------

/-- A nested block one level further down. -/
def deeper : Nat × Function → Nat × Function
  | (depth, f) => (depth + 1, f)

/-- The block in a slot and all blocks nested in it, each with its depth and before those it loads.
What a block loads from a slot that is not older is left out.
-/
def family (store : Store) (id : Nat) : List (Nat × Function) :=
  match store.block? id with
  | none => []
  | some f =>
      let inner := (f.chunk.loads store.symbols).flatMap fun other =>
        if other < id then store.family other else []
      (0, f) :: inner.map deeper
termination_by id

end Store

/-- The blocks nested in some code, each with its depth and before those it loads. -/
def Chunk.nested (store : Store) (chunk : Chunk) : List (Nat × Function) :=
  (chunk.loads store.symbols).flatMap store.family

/-- (chunk.Nests store depth f) holds if some code loads a block, directly or from within the blocks
that it loads.
-/
inductive Chunk.Nests (store : Store) : Chunk → Nat → Function → Prop
  | here {chunk id f} (loads : id ∈ chunk.loads store.symbols) (block : store.block? id = some f)
    : Nests store chunk 0 f
  | inside {chunk id f depth g} (loads : id ∈ chunk.loads store.symbols)
    (block : store.block? id = some f) (nests : Nests store f.chunk depth g)
    : Nests store chunk (depth + 1) g

theorem Chunk.Nests.exists_block {store : Store} {chunk : Chunk} {depth : Nat} {f : Function}
    (nests : chunk.Nests store depth f)
    : ∃ id, store.block? id = some f := by
  induction nests with
  | here _ block => exact ⟨_, block⟩
  | inside _ _ _ ih => exact ih

namespace Store.Orderly

variable {store : Store} {code : List Chunk} {chunk : Chunk}

theorem family_eq (orderly : store.Orderly code) {id : Nat} {f : Function}
    (block : store.block? id = some f)
    : store.family id = (0, f) :: (f.chunk.nested store).map deeper := by
  have older := (orderly.placed _ _ (block?_eq_some.mp block)).older
  rw [family, block]
  simp only [Chunk.nested]
  rw [List.flatMap_congr fun other loads => if_pos (older other loads)]

theorem family_of_none {id : Nat} (none : store.block? id = none)
    : store.family id = [] := by
  rw [family, none]

theorem mem_family (orderly : store.Orderly code) {id depth : Nat} {g : Function}
    : (depth, g) ∈ store.family id
      ↔ ∃ f, store.block? id = some f
          ∧ (depth = 0 ∧ g = f
            ∨ ∃ above, depth = above + 1 ∧ (above, g) ∈ f.chunk.nested store) := by
  cases block : store.block? id with
  | none => simp [family_of_none block]
  | some f =>
      rw [orderly.family_eq block]
      simp [deeper, eq_comm, and_comm]

/-- The nested blocks are listed, and no others, by induction on the depth. -/
theorem mem_nested (orderly : store.Orderly code) {depth : Nat} {g : Function}
    : (depth, g) ∈ chunk.nested store ↔ chunk.Nests store depth g := by
  rw [Chunk.nested, List.mem_flatMap]
  induction depth generalizing chunk with
  | zero =>
      constructor
      · rintro ⟨id, loads, member⟩
        obtain ⟨f, block, ⟨_, rfl⟩ | ⟨above, same, _⟩⟩ := orderly.mem_family.mp member
        · exact .here loads block
        · cases same
      · rintro ⟨loads, block⟩
        exact ⟨_, loads, orderly.mem_family.mpr ⟨_, block, .inl ⟨rfl, rfl⟩⟩⟩
  | succ depth ih =>
      constructor
      · rintro ⟨id, loads, member⟩
        obtain ⟨f, block, ⟨same, _⟩ | ⟨above, same, inner⟩⟩ := orderly.mem_family.mp member
        · cases same
        · cases same
          exact .inside loads block (ih.mp (List.mem_flatMap.mp inner))
      · intro nests
        cases nests with
        | inside loads block nests =>
            exact ⟨_, loads, orderly.mem_family.mpr
              ⟨_, block, .inr ⟨_, rfl, List.mem_flatMap.mpr (ih.mpr nests)⟩⟩⟩

/-- A block nested in the code of a slot is in a slot within it. -/
theorem within_of_nests {outer id depth : Nat} {f g : Function} (within : store.Within outer id)
    (block : store.block? id = some f) (nests : f.chunk.Nests store depth g)
    : ∃ inner, store.Within outer inner ∧ store.block? inner = some g := by
  generalize here : f.chunk = chunk at nests
  induction nests generalizing id f with
  | here loads found =>
      subst here
      exact ⟨_, within.loaded block loads, found⟩
  | inside loads found _ ih =>
      subst here
      exact ih (within.loaded block loads) found rfl

theorem within_of_mem_family (orderly : store.Orderly code) {outer depth : Nat} {g : Function}
    (member : (depth, g) ∈ store.family outer)
    : ∃ id, store.Within outer id ∧ g.id = some id := by
  obtain ⟨f, block, ⟨_, rfl⟩ | ⟨above, _, inner⟩⟩ := orderly.mem_family.mp member
  · exact ⟨outer, .self, (orderly.placed _ _ (block?_eq_some.mp block)).own⟩
  · obtain ⟨id, within, found⟩ := within_of_nests .self block (orderly.mem_nested.mp inner)
    exact ⟨id, within, (orderly.placed _ _ (block?_eq_some.mp found)).own⟩

theorem nodup_loads (orderly : store.Orderly code)
    (member : chunk ∈ store.blocks.map Function.chunk ++ code)
    : (chunk.loads store.symbols).Nodup :=
  (List.nodup_flatMap.mp orderly.once).1 chunk member

/-- Code that loads no slot twice has no block nested twice, if none of the slots it loads has. -/
theorem nodup_nested (orderly : store.Orderly code) (heads : store.Heads chunk)
    (once : (chunk.loads store.symbols).Nodup)
    (each : ∀ id ∈ chunk.loads store.symbols, ((store.family id).map fun b => b.2.id).Nodup)
    : ((chunk.nested store).map fun b => b.2.id).Nodup := by
  rw [Chunk.nested, List.map_flatMap, List.nodup_flatMap]
  refine ⟨each, once.imp_of_mem ?_⟩
  intro first second loads also apart own again other
  obtain ⟨⟨_, g⟩, member, rfl⟩ := List.mem_map.mp again
  obtain ⟨⟨_, h⟩, member', same⟩ := List.mem_map.mp other
  obtain ⟨id, within, named⟩ := orderly.within_of_mem_family member
  obtain ⟨id', within', named'⟩ := orderly.within_of_mem_family member'
  cases named.symm.trans (same.symm.trans named')
  exact apart (orderly.eq_of_within heads loads also within within')

/-- No block is nested twice in a slot, by induction on the slots it loads, which are older. -/
theorem nodup_family (orderly : store.Orderly code) (id : Nat)
    : ((store.family id).map fun b => b.2.id).Nodup := by
  induction id using Nat.strongRecOn with
  | ind id ih =>
      cases block : store.block? id with
      | none => simp [family_of_none block]
      | some f =>
          have placed := orderly.placed _ _ (block?_eq_some.mp block)
          have once := orderly.nodup_loads (List.mem_append_left _ (chunk_mem_of_block? block))
          have inner := orderly.nodup_nested (orderly.heads_of_block block) once
            fun other loads => ih other (placed.older other loads)
          rw [orderly.family_eq block, List.map_cons, List.map_map, List.nodup_cons]
          refine ⟨?_, inner⟩
          rw [placed.own]
          intro again
          obtain ⟨⟨depth, g⟩, member, own⟩ := List.mem_map.mp again
          obtain ⟨other, loads, found⟩ := List.mem_flatMap.mp member
          obtain ⟨inside, within, named⟩ := orderly.within_of_mem_family found
          cases named.symm.trans own
          have below := orderly.within_le within
          have older := placed.older other loads
          omega

end Store.Orderly

-----------------------------------------------------------------------------------------
-- The lines of a listing
-----------------------------------------------------------------------------------------

namespace Listing

/-- The blanks in front of a line. -/
def margin (indent : Nat) : String := String.ofList (List.replicate (2 * indent) ' ')

/-- One line for each instruction of some code, numbered from zero. -/
def instructionLines (store : Store) (indent : Nat) (chunk : Chunk) : List String :=
  (chunk.instructions.toOption.getD []).zipIdx.map fun (i, number) =>
    line (some store) (margin indent) number i

/-- The line above a nested block. -/
def header (indent : Nat) (f : Function) : String := margin indent ++ "-- " ++ f.text ++ " --"

/-- The lines of a nested block without those of the blocks that it loads. -/
def blockLines (store : Store) (indent : Nat) : Nat × Function → List String
  | (depth, f) =>
      header (indent + depth) f :: instructionLines store (indent + depth + 1) f.chunk

/-- The lines of some code and of all blocks nested in it. -/
def wholeLines (store : Store) (indent : Nat) (chunk : Chunk) : List String :=
  instructionLines store indent chunk ++ (chunk.nested store).flatMap (blockLines store indent)

variable {store : Store} {code : List Chunk} {chunk : Chunk}

/-- The block that an instruction loads is the one in the unnamed slot that it loads. -/
theorem loadedBlock?_eq {i : Instruction}
    (instruction : i.Closed store.symbols)
    : loadedBlock? store i = .ok ((i.loads? store.symbols).bind store.block?) := by
  have bound : i.id < store.values.size :=
    Nat.lt_of_lt_of_eq instruction.given store.covered.symm
  have slot : store.get? i.id = some store.values[i.id] := Array.getElem?_eq_getElem bound
  rw [loadedBlock?]
  split
  · next op unnamed =>
      have loads : i.loads? store.symbols = some i.id := if_pos ⟨op, unnamed⟩
      rw [loads, Option.bind_some, Store.block?, slot]
      cases store.values[i.id] <;> rfl
  · next other =>
      have loads : i.loads? store.symbols = none := if_neg fun ⟨op, unnamed⟩ => other op unnamed
      rw [loads]
      rfl

theorem addBlock_of_forall_ne {blocks : List Function} {f : Function}
    (new : ∀ g ∈ blocks, g.identity ≠ f.identity)
    : addBlock blocks f = blocks ++ [f] := by
  rw [addBlock, if_neg (by simpa using new)]

/-- What some instructions list: their lines, and the blocks in the slots that they load. -/
theorem body_eq (orderly : store.Orderly code) {instructions : List Instruction}
    (closed : ∀ i ∈ instructions, i.Closed store.symbols)
    (once : (instructions.filterMap (Instruction.loads? store.symbols)).Nodup) (pad : String)
    (number : Nat) (lines : List String) {blocks : List Function}
    (new
      : ∀ g ∈ blocks, ∀ id ∈ instructions.filterMap (Instruction.loads? store.symbols),
          g.identity ≠ .slot id)
    : body (some store) pad number lines blocks (instructions.map .ok)
      = .ok (
          lines.reverse ++ (instructions.zipIdx number).map fun (i, number) =>
            line (some store) pad number i,
          blocks ++ (instructions.filterMap (Instruction.loads? store.symbols)).filterMap
            store.block?) := by
  induction instructions generalizing number lines blocks with
  | nil => simp [body]
  | cons i instructions ih =>
      obtain ⟨here, later⟩ := List.forall_mem_cons.mp closed
      rw [List.map_cons, body, loadedBlock?_eq here]
      cases loads : i.loads? store.symbols with
      | none =>
          rw [List.filterMap_cons_none loads] at once new ⊢
          simpa using ih later once (number + 1) (line (some store) pad number i :: lines) new
      | some id =>
          rw [List.filterMap_cons_some loads] at once new ⊢
          obtain ⟨fresh, rest⟩ := List.nodup_cons.mp once
          have newer : ∀ g ∈ blocks,
              ∀ other ∈ instructions.filterMap (Instruction.loads? store.symbols),
                g.identity ≠ .slot other :=
            fun g member other found => new g member other (List.mem_cons_of_mem _ found)
          cases block : store.block? id with
          | none =>
              rw [List.filterMap_cons_none block, Option.bind_some, block]
              simpa using ih later rest (number + 1) (line (some store) pad number i :: lines) newer
          | some f =>
              have identity := (orderly.placed _ _ (Store.block?_eq_some.mp block)).identity
              have added : addBlock blocks f = blocks ++ [f] := by
                refine addBlock_of_forall_ne fun g member => ?_
                rw [identity]
                exact new g member id (List.mem_cons_self ..)
              rw [List.filterMap_cons_some block, Option.bind_some, block]
              simp only [added]
              rw [ih later rest (number + 1) (line (some store) pad number i :: lines) ?_]
              · simp
              · intro g member other found
                rcases List.mem_append.mp member with old | last
                · exact newer g old other found
                · rw [List.mem_singleton.mp last, identity]
                  rintro ⟨⟩
                  exact fresh found

theorem mapM_eq_ok {lines : Function → Except ListingFault (List String)}
    {all : Function → List String} {blocks : List Function}
    (each : ∀ f ∈ blocks, lines f = .ok (all f))
    : blocks.mapM lines = .ok (blocks.map all) := by
  induction blocks with
  | nil => rfl
  | cons f blocks ih =>
      obtain ⟨first, later⟩ := List.forall_mem_cons.mp each
      rw [List.mapM_cons, first, ih later]
      rfl

/-- The lines of a slot's block and of all blocks nested in it. -/
theorem flatMap_family (orderly : store.Orderly code) {id : Nat} {f : Function}
    (block : store.block? id = some f) (indent : Nat)
    : (store.family id).flatMap (blockLines store indent)
      = header indent f :: wholeLines store (indent + 1) f.chunk := by
  have shifted : ∀ b : Nat × Function,
      blockLines store indent (Store.deeper b) = blockLines store (indent + 1) b := by
    rintro ⟨depth, g⟩
    simp only [Store.deeper, blockLines, Nat.add_right_comm indent 1 depth, Nat.add_assoc]
  rw [orderly.family_eq block, List.flatMap_cons, List.flatMap_map, wholeLines]
  simp only [shifted]
  rfl

theorem flatten_blocks (orderly : store.Orderly code) (ids : List Nat) (indent : Nat)
    : ((ids.filterMap store.block?).map fun f =>
        header indent f :: wholeLines store (indent + 1) f.chunk).flatten
      = (ids.flatMap store.family).flatMap (blockLines store indent) := by
  induction ids with
  | nil => rfl
  | cons id ids ih =>
      rw [List.flatMap_cons, List.flatMap_append, ← ih]
      cases block : store.block? id with
      | none => rw [List.filterMap_cons_none block, Store.Orderly.family_of_none block]; rfl
      | some f => rw [List.filterMap_cons_some block, flatMap_family orderly block]; rfl

/-- A listing goes one level further than the listings of the blocks that some code loads. -/
theorem linesTo_succ (orderly : store.Orderly code) (closed : chunk.Closed store.symbols)
    (once : (chunk.loads store.symbols).Nodup) {limit indent : Nat}
    (inner
      : ∀ id ∈ chunk.loads store.symbols, ∀ f, store.block? id = some f →
          linesTo (some store) limit (indent + 1) f.chunk
            = .ok (wholeLines store (indent + 1) f.chunk))
    : linesTo (some store) (limit + 1) indent chunk = .ok (wholeLines store indent chunk) := by
  obtain ⟨instructions, encodes, each⟩ := closed
  have loads := encodes.loads_eq store.symbols
  have own : instructionLines store indent chunk
      = instructions.zipIdx.map fun (i, number) => line (some store) (margin indent) number i := by
    rw [instructionLines, encodes.instructions_eq]
    rfl
  have nested : ((chunk.loads store.symbols).filterMap store.block?).mapM (fun f => do
        let below ← linesTo (some store) limit (indent + 1) f.chunk
        return (margin indent ++ "-- " ++ f.text ++ " --") :: below)
      = .ok (((chunk.loads store.symbols).filterMap store.block?).map fun f =>
          header indent f :: wholeLines store (indent + 1) f.chunk) := by
    refine mapM_eq_ok fun f member => ?_
    obtain ⟨id, loaded, block⟩ := List.mem_filterMap.mp member
    rw [inner id loaded f block]
    rfl
  have listed := body_eq orderly each (loads ▸ once) (margin indent) 0 []
    (List.forall_mem_nil _)
  rw [← loads, ← own] at listed
  simp only [List.reverse_nil, List.nil_append, margin] at listed nested
  rw [linesTo, encodes.bytes, decodeEach_encode encodes.fits]
  simp only [bind, Except.bind, listed] at nested ⊢
  rw [nested]
  exact congrArg (fun below => Except.ok (instructionLines store indent chunk ++ below))
    (flatten_blocks orderly (chunk.loads store.symbols) indent)

/-- Some code has all its lines and those of all nested blocks as soon as the depth exceeds the ids
that it loads, by induction on the depth.
-/
theorem linesTo_eq (orderly : store.Orderly code) {limit : Nat}
    (closed : chunk.Closed store.symbols) (once : (chunk.loads store.symbols).Nodup)
    (below : ∀ id ∈ chunk.loads store.symbols, id < limit) (indent : Nat)
    : linesTo (some store) (limit + 1) indent chunk = .ok (wholeLines store indent chunk) := by
  induction limit generalizing indent chunk with
  | zero =>
      exact linesTo_succ orderly closed once fun id loads => absurd (below id loads) (by omega)
  | succ limit ih =>
      refine linesTo_succ orderly closed once fun id loads f block => ?_
      have slot := Store.block?_eq_some.mp block
      refine ih (orderly.closed.values id _ slot)
        (orderly.nodup_loads (List.mem_append_left _ (Store.chunk_mem_of_block? block))) ?_ _
      intro other inner
      have older := (orderly.placed id f slot).older other inner
      have here := below id loads
      omega

end Listing

end StackText
