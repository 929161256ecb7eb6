import Mathlib.Data.List.Flatten
import Mathlib.Data.List.Nodup
import StackText.Proofs.Reader.ClosedDraft

/-! What compiled code loads from unnamed slots. A literal or a block gets a slot of its own, which
the one instruction behind it loads; so a block loads only slots that are older than its own, and
no slot is loaded by two instructions. This holds of all code together: of the blocks in the store,
of those that are still open, and of what was compiled before.
-/

namespace StackText

-----------------------------------------------------------------------------------------
-- Unnamed slots that code loads
-----------------------------------------------------------------------------------------

/-- The unnamed id that an instruction loads, if it does. -/
def Instruction.loads? (table : SymbolTable) (i : Instruction) : Option Nat :=
  if i.op = .load ∧ table.name? i.id = none then some i.id else none

/-- The unnamed ids that some code loads, in order. -/
def Chunk.loads (table : SymbolTable) (chunk : Chunk) : List Nat :=
  (chunk.instructions.toOption.getD []).filterMap (Instruction.loads? table)

theorem Instruction.loads?_grown {table later : SymbolTable} {i : Instruction}
    (given : i.id < table.size) (grows : table.names.toList <+: later.names.toList)
    : i.loads? later = i.loads? table := by
  rw [loads?, loads?, SymbolTable.name?_natCast, SymbolTable.name?_natCast,
    SymbolTable.names_grown grows given]

namespace Chunk

theorem Encodes.loads_eq {chunk : Chunk} {code : List Instruction} (encodes : chunk.Encodes code)
    (table : SymbolTable)
    : chunk.loads table = code.filterMap (Instruction.loads? table) := by
  rw [loads, encodes.instructions_eq]
  rfl

theorem loads_empty (table : SymbolTable)
    : loads table {} = [] :=
  Encodes.empty.loads_eq table

theorem Closed.loads_push {table : SymbolTable} {chunk : Chunk} (closed : chunk.Closed table)
    {i : Instruction} (fits : i.id < idLimit)
    : (chunk.push i).loads table = chunk.loads table ++ (i.loads? table).toList := by
  obtain ⟨code, encodes, _⟩ := closed
  rw [(encodes.push fits).loads_eq, encodes.loads_eq, List.filterMap_append]
  cases loads : i.loads? table <;> simp [loads]

theorem Closed.loads_grown {table later : SymbolTable} {chunk : Chunk}
    (closed : chunk.Closed table) (grows : table.names.toList <+: later.names.toList)
    : chunk.loads later = chunk.loads table := by
  obtain ⟨code, encodes, instructions⟩ := closed
  rw [encodes.loads_eq, encodes.loads_eq]
  exact List.filterMap_congr fun i member =>
    Instruction.loads?_grown (instructions i member).given grows

theorem Closed.lt_of_mem_loads {table : SymbolTable} {chunk : Chunk} (closed : chunk.Closed table)
    {id : Nat} (loaded : id ∈ chunk.loads table)
    : id < table.size := by
  obtain ⟨code, encodes, instructions⟩ := closed
  rw [encodes.loads_eq, List.mem_filterMap] at loaded
  obtain ⟨i, member, loads⟩ := loaded
  rw [Instruction.loads?] at loads
  split at loads
  · cases loads
    exact (instructions i member).given
  · cases loads

end Chunk

-----------------------------------------------------------------------------------------
-- Blocks in the store
-----------------------------------------------------------------------------------------

/-- The block that a value is, if it is one. -/
def Value.block? : Value → Option Function
  | .func f => some f
  | _ => none

namespace Store

/-- The blocks in the slots of a store. -/
def blocks (store : Store) : List Function := store.values.toList.filterMap Value.block?

/-- The unnamed ids that the blocks of a store and some more code load. -/
def loaded (store : Store) (code : List Chunk) : List Nat :=
  (store.blocks.map Function.chunk ++ code).flatMap (Chunk.loads store.symbols)

theorem mem_blocks {store : Store} {f : Function}
    : f ∈ store.blocks ↔ ∃ id, store.get? id = some (.func f) := by
  simp only [blocks, List.mem_filterMap, get?, ← Array.getElem?_toList]
  constructor
  · rintro ⟨v, found, block⟩
    cases v with
    | func g => cases block; exact List.mem_iff_getElem?.mp found
    | _ => cases block
  · rintro ⟨id, slot⟩
    exact ⟨_, List.mem_of_getElem? slot, rfl⟩

theorem blocks_alloc (store : Store) (v : Value)
    : (store.alloc v).2.blocks = store.blocks ++ v.block?.toList := by
  rw [alloc_eq, blocks, Array.toList_push, List.filterMap_append]
  cases block : v.block? <;> simp [block, blocks]

theorem blocks_intern (store : Store) (name : String)
    : (store.intern name).2.blocks = store.blocks := by
  cases known : store.symbols.id? name with
  | some id => rw [intern_of_some known]
  | none => simp [intern_of_none known, blocks, Value.block?]

end Store

/-- (f.Placed store id) holds of a block in its own unnamed slot, which loads only unnamed slots
that are older.
-/
structure Function.Placed (store : Store) (id : Nat) (f : Function) : Prop where
  unnamed : store.name? id = none
  own : f.id = some id
  identity : f.identity = .slot id
  older : ∀ other ∈ f.chunk.loads store.symbols, other < id

/-- (store.Orderly code) holds if all blocks of a store are placed, and no unnamed id is loaded
twice by them and some more code. All code is closed.
-/
structure Store.Orderly (store : Store) (code : List Chunk) : Prop where
  closed : store.Closed
  others : ∀ chunk ∈ code, chunk.Closed store.symbols
  placed : ∀ id f, store.get? id = some (.func f) → f.Placed store id
  once : (store.loaded code).Nodup

namespace Store.Orderly

variable {store later : Store} {code : List Chunk} {chunk : Chunk}

theorem closed_of_mem (orderly : store.Orderly code)
    (member : chunk ∈ store.blocks.map Function.chunk ++ code)
    : chunk.Closed store.symbols := by
  rcases List.mem_append.mp member with block | more
  · obtain ⟨f, found, rfl⟩ := List.mem_map.mp block
    obtain ⟨id, slot⟩ := mem_blocks.mp found
    exact orderly.closed.values id _ slot
  · exact orderly.others chunk more

theorem lt_of_mem_loaded (orderly : store.Orderly code) {id : Nat}
    (loaded : id ∈ store.loaded code)
    : id < store.symbols.size := by
  obtain ⟨chunk, member, loads⟩ := List.mem_flatMap.mp loaded
  exact (orderly.closed_of_mem member).lt_of_mem_loads loads

/-- The order in which code is listed does not matter. -/
theorem perm (orderly : store.Orderly code) {other : List Chunk} (same : code.Perm other)
    : store.Orderly other :=
  ⟨orderly.closed, fun chunk member => orderly.others chunk (same.mem_iff.mpr member),
    orderly.placed, ((same.append_left _).flatMap_right _).nodup orderly.once⟩

/-- Code may be dropped. -/
theorem sublist (orderly : store.Orderly code) {other : List Chunk} (fewer : other.Sublist code)
    : store.Orderly other :=
  ⟨orderly.closed, fun chunk member => orderly.others chunk (fewer.subset member), orderly.placed,
    orderly.once.sublist ((fewer.append_left _).flatMap _)⟩

theorem cons_empty (orderly : store.Orderly code)
    : store.Orderly ({} :: code) := by
  refine ⟨orderly.closed, List.forall_mem_cons.mpr ⟨Chunk.closed_empty _, orderly.others⟩,
    orderly.placed, ?_⟩
  simpa [loaded, Chunk.loads_empty] using orderly.once

/-- Code loads the same ids over a store that has grown. -/
theorem flatMap_loads_grown (orderly : store.Orderly code) (grows : store.Grows later)
    : (store.blocks.map Function.chunk ++ code).flatMap (Chunk.loads later.symbols)
      = store.loaded code :=
  List.flatMap_congr fun _ member => (orderly.closed_of_mem member).loads_grown grows.names

theorem placed_grown (orderly : store.Orderly code) (grows : store.Grows later) {id : Nat}
    {f : Function} (slot : store.get? id = some (.func f))
    : f.Placed later id := by
  have placed := orderly.placed id f slot
  have given : id < store.symbols.size :=
    Nat.lt_of_lt_of_eq (Array.getElem?_eq_some_iff.mp slot).1 (Store.covered _)
  have closed : f.chunk.Closed store.symbols := orderly.closed.values id _ slot
  refine ⟨(grows.name? given).trans placed.unnamed, placed.own, placed.identity, ?_⟩
  rw [closed.loads_grown grows.names]
  exact placed.older

/-- A new slot takes in a block, if its value is one, and nothing loads it yet. -/
theorem alloc {v : Value}
    (orderly : store.Orderly (v.block?.toList.map Function.chunk ++ code))
    (value : v.Closed store.symbols)
    (own
      : ∀ f ∈ v.block?, f.id = some store.symbols.size ∧ f.identity = .slot store.symbols.size)
    : (store.alloc v).2.Orderly code
      ∧ store.symbols.size ∉ (store.alloc v).2.loaded code := by
  have grows := grows_alloc store v
  have loaded : (store.alloc v).2.loaded code
      = store.loaded (v.block?.toList.map Function.chunk ++ code) := by
    rw [← orderly.flatMap_loads_grown grows, Store.loaded, blocks_alloc]
    simp
  refine ⟨⟨orderly.closed.alloc value, ?_, ?_, loaded ▸ orderly.once⟩, ?_⟩
  · intro chunk member
    exact (orderly.others chunk (List.mem_append_right _ member)).grown grows.names
  · intro id f slot
    rw [alloc_eq, get?, Array.getElem?_push] at slot
    split at slot
    · next last =>
        obtain rfl : v = .func f := Option.some.inj slot
        rw [Store.covered] at last
        subst last
        obtain ⟨ownId, identity⟩ := own f rfl
        refine ⟨name?_alloc store _, ownId, identity, ?_⟩
        have closed : f.chunk.Closed store.symbols := value
        rw [closed.loads_grown grows.names]
        exact fun other loads => closed.lt_of_mem_loads loads
    · exact orderly.placed_grown grows slot
  · rw [loaded]
    exact fun member => Nat.lt_irrefl _ (orderly.lt_of_mem_loaded member)

/-- Looking up a name leaves all code as it is. -/
theorem intern (orderly : store.Orderly code) (name : String)
    : (store.intern name).2.Orderly code := by
  have grows := grows_intern store name
  refine ⟨orderly.closed.intern name, fun chunk member => (orderly.others chunk member).grown
    grows.names, ?_, ?_⟩
  · intro id f slot
    cases known : store.symbols.id? name with
    | some other =>
        rw [intern_of_some known] at slot ⊢
        exact orderly.placed id f slot
    | none =>
        have old : store.get? id = some (.func f) := by
          rw [intern_of_none known, get?, Array.getElem?_push] at slot
          split at slot
          · cases slot
          · exact slot
        exact orderly.placed_grown grows old
  · rw [loaded, blocks_intern, orderly.flatMap_loads_grown grows]
    exact orderly.once

/-- An instruction is added behind some code, if the id it loads, if any, is not loaded yet. -/
theorem push (orderly : store.Orderly (chunk :: code)) {i : Instruction}
    (instruction : i.Closed store.symbols) (fits : i.id < idLimit)
    (new : ∀ id ∈ i.loads? store.symbols, id ∉ store.loaded (chunk :: code))
    : store.Orderly (chunk.push i :: code) := by
  obtain ⟨closed, others⟩ := List.forall_mem_cons.mp orderly.others
  refine ⟨orderly.closed, List.forall_mem_cons.mpr ⟨closed.push instruction fits, others⟩,
    orderly.placed, ?_⟩
  have loaded : (store.loaded (chunk.push i :: code)).Perm
      ((i.loads? store.symbols).toList ++ store.loaded (chunk :: code)) := by
    simpa [Store.loaded, closed.loads_push fits] using List.perm_append_comm_assoc
      ((store.blocks.map Function.chunk).flatMap (Chunk.loads store.symbols)
        ++ chunk.loads store.symbols)
      (i.loads? store.symbols).toList (code.flatMap (Chunk.loads store.symbols))
  rw [loaded.nodup_iff]
  cases loads : i.loads? store.symbols with
  | none => simpa using orderly.once
  | some id => simpa using ⟨new id loads, orderly.once⟩

end Store.Orderly

theorem Store.orderly_empty
    : Store.empty.Orderly [] := by
  refine ⟨closed_empty, by simp, by simp [empty, get?], ?_⟩
  simp [loaded, blocks, empty]

/-- A store of builtins has no blocks. -/
theorem Store.orderly_withBuiltins
    : Store.withBuiltins.Orderly [] := by
  have none : withBuiltins.Every fun v => v.block? = none :=
    every_withBuiltins rfl fun _ => rfl
  have blocks : withBuiltins.blocks = [] := by
    refine List.filterMap_eq_nil_iff.mpr fun v member => ?_
    obtain ⟨id, slot⟩ := List.mem_iff_getElem?.mp member
    exact none id v (by rw [get?, ← Array.getElem?_toList, slot])
  refine ⟨closed_withBuiltins, by simp, ?_, by simp [loaded, blocks]⟩
  intro id f slot
  cases none id _ slot

-----------------------------------------------------------------------------------------
-- Drafts
-----------------------------------------------------------------------------------------

namespace Draft

variable {draft : Draft} {others : List Chunk}

/-- (draft.Orderly others) holds if the store is orderly with the code of all open blocks and some
other code.
-/
def Orderly (draft : Draft) (others : List Chunk) : Prop :=
  draft.store.Orderly (draft.chunk :: (draft.outer ++ others))

/-- Open code may be dropped. -/
theorem Orderly.cleared (orderly : draft.Orderly others)
    : draft.store.Orderly ({} :: others) := by
  refine Store.Orderly.cons_empty (orderly.sublist ?_)
  exact (List.sublist_append_right _ _).trans (List.sublist_cons_self _ _)

theorem Orderly.emit (orderly : draft.Orderly others) {i : Instruction}
    (instruction : i.Closed draft.store.symbols)
    (new
      : ∀ id ∈ i.loads? draft.store.symbols,
          id ∉ draft.store.loaded (draft.chunk :: (draft.outer ++ others)))
    : (recover (draft.emit i)).Orderly others := by
  rw [emit_eq]
  split
  · next fits => exact orderly.push instruction fits new
  · exact orderly.cleared

/-- A value in a slot of its own is loaded by the one instruction that is added for it. -/
theorem Orderly.literal (value : Nat → Value) {v : Value}
    (here : value draft.store.symbols.size = v)
    (orderly
      : draft.store.Orderly
          (v.block?.toList.map Function.chunk ++ draft.chunk :: (draft.outer ++ others)))
    (closed : v.Closed draft.store.symbols)
    (own
      : ∀ f ∈ v.block?,
          f.id = some draft.store.symbols.size ∧ f.identity = .slot draft.store.symbols.size)
    : (recover (draft.literal value)).Orderly others := by
  obtain ⟨taken, unloaded⟩ := orderly.alloc closed own
  have grown : Orderly { draft with store := (draft.store.alloc v).2 } others := taken
  rw [literal_eq, here]
  refine grown.emit ⟨?_, fun refers => absurd rfl refers⟩ ?_
  · simp [Store.size_alloc]
  · intro id loads
    rw [Instruction.loads?] at loads
    split at loads
    · cases loads
      exact unloaded
    · cases loads

theorem Orderly.named (orderly : draft.Orderly others) (op : Opcode) (name : String)
    : (recover (draft.named op name)).Orderly others := by
  have known := orderly.closed.formed.names_intern name
  have grown : Orderly { draft with store := (draft.store.intern name).2 } others :=
    Store.Orderly.intern orderly name
  rw [named_eq]
  refine grown.emit ⟨(Array.getElem?_eq_some_iff.mp known).1, fun _ => ⟨name, known⟩⟩ ?_
  intro id loads
  have named : (draft.store.intern name).2.symbols.name? (draft.store.intern name).1 = some name :=
    orderly.closed.formed.name?_intern name
  simp [Instruction.loads?, named] at loads

/-- A token keeps a draft orderly, whether or not it stops compiling, by cases on the token. -/
theorem Orderly.token (orderly : draft.Orderly others) (token : Token)
    : (recover (draft.token token)).Orderly others := by
  cases token with
  | openBlock => exact orderly.cons_empty
  | closeBlock =>
      obtain ⟨store, outer, block⟩ := draft
      cases outer with
      | nil => exact orderly
      | cons chunk outer =>
          have closed := orderly.others block (List.mem_cons_self ..)
          refine @literal ⟨store, outer, chunk⟩ others (blockValue block) _ rfl orderly closed ?_
          rintro f ⟨⟩
          exact ⟨rfl, rfl⟩
  | string text => exact literal (fun _ => .str text) rfl orderly trivial (by rintro _ ⟨⟩)
  | word text =>
      rw [Draft.token, Draft.word]
      split
      · next meaning _ =>
          cases meaning with
          | assign name | load name | call name => exact orderly.named _ _
          | number n =>
              cases n with
              | int n => exact literal (fun _ => .int n) rfl orderly trivial (by rintro _ ⟨⟩)
              | float x =>
                  exact literal (fun id => .float x (.slot id)) rfl orderly trivial
                    (by rintro _ ⟨⟩)
      · exact orderly
  | unterminated rest => exact orderly

/-- Tokens keep a draft orderly, up to the one that stops compiling, by induction on them. -/
theorem Orderly.tokens (orderly : draft.Orderly others) (tokens : List Token)
    : (recover (draft.tokens tokens)).Orderly others := by
  induction tokens generalizing draft with
  | nil => exact orderly
  | cons t tokens ih =>
      have first := orderly.token t
      rw [Draft.tokens]
      split
      · next next read =>
          rw [read] at first
          exact ih first
      · exact first

end Draft

-----------------------------------------------------------------------------------------
-- Readers
-----------------------------------------------------------------------------------------

/-- The code of the blocks that a reader keeps open. -/
def Reader.code (reader : Reader) : List Chunk := reader.chunk :: reader.outer

/-- The code that a piece of text leaves: what is finished, and what is kept open. -/
def Compiled.code (compiled : Compiled) : List Chunk :=
  compiled.result.toOption.toList ++ compiled.recovered.code

namespace Reader

/-- What is made of an orderly draft is orderly, by cases on what stopped compiling. -/
theorem orderly_conclude {draft : Draft} {stoppage : Option Stoppage} {others : List Chunk}
    (orderly : (Draft.recover (draft, stoppage)).Orderly others) (final : Bool) (text : List Char)
    : draft.store.Orderly ((conclude final text (draft, stoppage)).code ++ others) := by
  have cleared : draft.store.Orderly (fresh.code ++ others) :=
    Draft.store_recover (draft, stoppage) ▸ orderly.cleared
  have pending (kept : draft.Orderly others)
      : ∀ what held,
          draft.store.Orderly ((unfinished final draft what held).code ++ others) := by
    intro what held
    cases final with
    | true => exact cleared
    | false => exact kept
  cases stoppage with
  | none =>
      rw [conclude]
      split
      · next closed =>
          have alone : draft.outer = [] := List.isEmpty_iff.mp closed
          have finished : draft.store.Orderly (draft.chunk :: others) := by
            simpa [Draft.Orderly, Draft.recover, alone] using orderly
          exact finished.cons_empty.perm (.swap ..)
      · exact pending orderly _ _
  | some stoppage =>
      cases stoppage with
      | strayClose | code fault => exact cleared
      | unterminated rest => exact pending orderly _ _
      | numeral fault => exact orderly

/-- Compiling a piece of text keeps a store orderly with all code, whatever comes of it. -/
theorem orderly_compile {reader : Reader} {store : Store} {others : List Chunk}
    (orderly : store.Orderly (reader.code ++ others)) (piece : List Char) (final : Bool)
    : (reader.compile store piece final).store.Orderly
        ((reader.compile store piece final).code ++ others) := by
  have start : Draft.Orderly ⟨store, reader.outer, reader.chunk⟩ others := orderly
  have read := start.tokens (Token.sequence (reader.held ++ piece))
  rw [compile_eq, store_conclude]
  exact orderly_conclude read final _

end Reader

-----------------------------------------------------------------------------------------
-- Many readers over one store
-----------------------------------------------------------------------------------------

/-- (Built store readers code) holds of a store that readers have compiled texts over, each any
number of pieces in any order, with what the readers keep and the code they have finished. A reader
is cleared when an id did not fit.
-/
inductive Built : Store → List Reader → List Chunk → Prop
  | empty
    : Built .empty [] []
  | builtins
    : Built .withBuiltins [] []
  | reader {store readers code} (built : Built store readers code)
    : Built store (.fresh :: readers) code
  | piece {store before reader after code} (built : Built store (before ++ reader :: after) code)
    (text : List Char) (final : Bool)
    : Built (reader.compile store text final).store
        (before ++ (reader.compile store text final).recovered :: after)
        ((reader.compile store text final).result.toOption.toList ++ code)

/-- A store that texts were compiled over is orderly with all their code, by induction on the
pieces of text.
-/
theorem Built.orderly {store : Store} {readers : List Reader} {code : List Chunk}
    (built : Built store readers code)
    : store.Orderly (readers.flatMap Reader.code ++ code) := by
  induction built with
  | empty => exact Store.orderly_empty
  | builtins => exact Store.orderly_withBuiltins
  | reader _ ih => exact ih.cons_empty
  | @piece store before reader after code _ text final ih =>
      have first : store.Orderly
          (reader.code ++ (before.flatMap Reader.code ++ after.flatMap Reader.code ++ code)) := by
        refine ih.perm ?_
        simpa using List.perm_append_comm_assoc (before.flatMap Reader.code) reader.code
          (after.flatMap Reader.code ++ code)
      refine (Reader.orderly_compile first text final).perm ?_
      rw [List.perm_iff_count]
      intro chunk
      simp only [Compiled.code, List.flatMap_append, List.flatMap_cons, List.count_append]
      omega

end StackText
