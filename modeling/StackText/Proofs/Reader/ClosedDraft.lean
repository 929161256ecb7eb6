import StackText.Proofs.Reader.Conclusion
import StackText.Proofs.Store.Closed

/-! Compiling makes closed code only, whatever comes of it. Each token adds instructions on ids that
the store has given out, and the store only grows, so code that is closed stays closed, also in the
blocks that a failure leaves open. One failure is apart: an id that does not fit leaves its opcode
behind, and nothing can be added to such code. It is dropped before anything else is compiled.
-/

namespace StackText

-----------------------------------------------------------------------------------------
-- Drafts
-----------------------------------------------------------------------------------------

namespace Draft

/-- (draft.Closed) holds if the store and the code of all open blocks are closed. -/
structure Closed (draft : Draft) : Prop where
  store : draft.store.Closed
  outer : ∀ chunk ∈ draft.outer, chunk.Closed draft.store.symbols
  chunk : draft.chunk.Closed draft.store.symbols

/-- The draft to go on with. All open code is dropped if an opcode was left without its id. -/
def recover : Draft × Option Stoppage → Draft
  | (draft, some (.code _)) => { draft with outer := [], chunk := {} }
  | (draft, _) => draft

@[simp] theorem store_recover (read : Draft × Option Stoppage)
    : (recover read).store = read.1.store := by
  fun_cases recover read <;> rfl

/-- (draft.Advances next) holds if the next draft is closed over a store that has grown. -/
structure Advances (draft next : Draft) : Prop where
  closed : next.Closed
  grows : draft.store.Grows next.store

/-- Code stays closed over a closed store that has grown. -/
theorem Closed.withStore {draft : Draft} (closed : draft.Closed) {store : Store}
    (values : store.Closed) (grows : draft.store.Grows store)
    : Closed { draft with store } :=
  ⟨values, fun chunk member => (closed.outer chunk member).grown grows.names,
    closed.chunk.grown grows.names⟩

theorem Closed.emit {draft : Draft} (closed : draft.Closed) {i : Instruction}
    (instruction : i.Closed draft.store.symbols)
    : draft.Advances (recover (draft.emit i)) := by
  rw [emit_eq]
  split
  · next fits => exact ⟨⟨closed.store, closed.outer, closed.chunk.push instruction fits⟩, .refl _⟩
  · exact ⟨⟨closed.store, by simp [recover], Chunk.closed_empty _⟩, .refl _⟩

theorem Closed.literal {draft : Draft} (closed : draft.Closed) (value : Nat → Value)
    (valueClosed : (value draft.store.symbols.size).Closed draft.store.symbols)
    : draft.Advances (recover (draft.literal value)) := by
  rw [literal_eq]
  have grows := Store.grows_alloc draft.store (value draft.store.symbols.size)
  have loads : Instruction.Closed (draft.store.alloc (value draft.store.symbols.size)).2.symbols
      ⟨.load, draft.store.symbols.size⟩ := by
    refine ⟨?_, fun refers => absurd rfl refers⟩
    simp [Store.alloc_eq, SymbolTable.addUnnamed, SymbolTable.size]
  have added := (closed.withStore (closed.store.alloc valueClosed) grows).emit loads
  exact ⟨added.closed, grows.trans added.grows⟩

theorem Closed.named {draft : Draft} (closed : draft.Closed) (op : Opcode) (name : String)
    : draft.Advances (recover (draft.named op name)) := by
  rw [named_eq]
  have grows := Store.grows_intern draft.store name
  have known := closed.store.formed.names_intern name
  have refers : Instruction.Closed (draft.store.intern name).2.symbols
      ⟨op, (draft.store.intern name).1⟩ :=
    ⟨(Array.getElem?_eq_some_iff.mp known).1, fun _ => ⟨name, known⟩⟩
  have added := (closed.withStore (closed.store.intern name) grows).emit refers
  exact ⟨added.closed, grows.trans added.grows⟩

/-- A token keeps a draft closed, whether or not it stops compiling, by cases on the token. -/
theorem Closed.token {draft : Draft} (closed : draft.Closed) (token : Token)
    : draft.Advances (recover (draft.token token)) := by
  cases token with
  | openBlock =>
      refine ⟨⟨closed.store, ?_, Chunk.closed_empty _⟩, .refl _⟩
      exact List.forall_mem_cons.mpr ⟨closed.chunk, closed.outer⟩
  | closeBlock =>
      obtain ⟨store, outer, block⟩ := draft
      cases outer with
      | nil => exact ⟨closed, .refl _⟩
      | cons chunk outer =>
          obtain ⟨around, beyond⟩ := List.forall_mem_cons.mp closed.outer
          have outside : Closed ⟨store, outer, chunk⟩ := ⟨closed.store, beyond, around⟩
          have closing := outside.literal (blockValue block) closed.chunk
          exact ⟨closing.closed, closing.grows⟩
  | string text => exact closed.literal (fun _ => .str text) trivial
  | word text =>
      rw [Draft.token, Draft.word]
      split
      · next meaning _ =>
          cases meaning with
          | assign name | load name | call name => exact closed.named _ _
          | number n =>
              cases n with
              | int n => exact closed.literal (fun _ => .int n) trivial
              | float x => exact closed.literal (fun id => .float x (.slot id)) trivial
      · exact ⟨closed, .refl _⟩
  | unterminated rest => exact ⟨closed, .refl _⟩

/-- Tokens keep a draft closed, up to the one that stops compiling, by induction on them. -/
theorem Closed.tokens {draft : Draft} (closed : draft.Closed) (tokens : List Token)
    : draft.Advances (recover (draft.tokens tokens)) := by
  induction tokens generalizing draft with
  | nil => exact ⟨closed, .refl _⟩
  | cons t tokens ih =>
      have first := closed.token t
      rw [Draft.tokens]
      split
      · next next read =>
          rw [read] at first
          have later := ih first.closed
          exact ⟨later.closed, first.grows.trans later.grows⟩
      · exact first

end Draft

-----------------------------------------------------------------------------------------
-- Readers
-----------------------------------------------------------------------------------------

/-- (reader.Closed table) holds if the code of all open blocks is closed. -/
structure Reader.Closed (table : SymbolTable) (reader : Reader) : Prop where
  outer : ∀ chunk ∈ reader.outer, chunk.Closed table
  chunk : reader.chunk.Closed table

theorem Reader.closed_fresh (table : SymbolTable)
    : fresh.Closed table :=
  ⟨by simp [fresh], Chunk.closed_empty table⟩

/-- The reader to go on with after a piece of text. It is cleared if an opcode was left in its code
without an id.
-/
def Compiled.recovered (compiled : Compiled) : Reader :=
  match compiled.result with
  | .error (.code _) => .fresh
  | _ => compiled.reader

/-- What is closed after a piece of text: the store, the open blocks and the code, if there is
any.
-/
structure Compiled.Closed (compiled : Compiled) : Prop where
  store : compiled.store.Closed
  reader : compiled.recovered.Closed compiled.store.symbols
  code : ∀ chunk, compiled.result = .ok chunk → chunk.Closed compiled.store.symbols

namespace Reader

/-- What is made of a closed draft is closed, by cases on what stopped compiling. -/
theorem closed_conclude {draft : Draft} {stoppage : Option Stoppage}
    (closed : (Draft.recover (draft, stoppage)).Closed) (final : Bool) (text : List Char)
    : (conclude final text (draft, stoppage)).Closed := by
  have store : draft.store.Closed := Draft.store_recover (draft, stoppage) ▸ closed.store
  have pending (open_ : draft.Closed)
      : ∀ what held, (unfinished final draft what held).Closed := by
    intro what held
    cases final with
    | true => exact ⟨store, closed_fresh _, by rintro _ ⟨⟩⟩
    | false => exact ⟨store, ⟨open_.outer, open_.chunk⟩, by rintro _ ⟨⟩⟩
  cases stoppage with
  | none =>
      rw [conclude]
      split
      · refine ⟨store, closed_fresh _, ?_⟩
        intro chunk code
        cases code
        exact closed.chunk
      · exact pending closed _ _
  | some stoppage =>
      cases stoppage with
      | strayClose => exact ⟨store, closed_fresh _, by rintro _ ⟨⟩⟩
      | unterminated rest => exact pending closed _ _
      | numeral fault => exact ⟨store, ⟨closed.outer, closed.chunk⟩, by rintro _ ⟨⟩⟩
      | code fault => exact ⟨store, closed_fresh _, by rintro _ ⟨⟩⟩

/-- Compiling a piece of text over a closed store keeps everything closed and the store grows,
whatever comes of it.
-/
theorem closed_compile {reader : Reader} {store : Store} (values : store.Closed)
    (blocks : reader.Closed store.symbols) (piece : List Char) (final : Bool)
    : (reader.compile store piece final).Closed
      ∧ store.Grows (reader.compile store piece final).store := by
  have start : Draft.Closed ⟨store, reader.outer, reader.chunk⟩ :=
    ⟨values, blocks.outer, blocks.chunk⟩
  have read := start.tokens (Token.sequence (reader.held ++ piece))
  rw [compile_eq]
  refine ⟨closed_conclude read.closed final _, ?_⟩
  rw [store_conclude, ← Draft.store_recover]
  exact read.grows

end Reader

end StackText
