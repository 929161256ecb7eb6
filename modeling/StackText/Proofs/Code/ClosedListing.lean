import StackText.Code.Listing
import StackText.Proofs.Store.Closed

/-! Closed code over a closed store has a listing: it decodes, and the slots it loads exist. -/

namespace StackText

namespace Listing

variable {store : Store}

/-- The block that a closed instruction loads, if it does, is closed. -/
theorem loadedBlock?_closed (closed : store.Closed) {i : Instruction}
    (instruction : i.Closed store.symbols)
    : ∃ block?, loadedBlock? store i = .ok block? ∧ ∀ f ∈ block?, f.chunk.Closed store.symbols := by
  have bound : i.id < store.values.size :=
    Nat.lt_of_lt_of_eq instruction.given store.covered.symm
  have slot : store.get? i.id = some (store.values[i.id]) := Array.getElem?_eq_getElem bound
  rw [loadedBlock?]
  split
  · rw [slot]
    split
    · next f found =>
        refine ⟨some f, rfl, ?_⟩
        rintro g ⟨⟩
        exact closed.values _ _ (slot.trans found)
    · exact ⟨none, rfl, by simp⟩
    · next missing => cases missing
  · exact ⟨none, rfl, by simp⟩

theorem addBlock_closed {blocks : List Function}
    (closed : ∀ g ∈ blocks, g.chunk.Closed store.symbols) {f : Function}
    (block : f.chunk.Closed store.symbols)
    : ∀ g ∈ addBlock blocks f, g.chunk.Closed store.symbols := by
  rw [addBlock]
  split
  · exact closed
  · intro g member
    rcases List.mem_append.mp member with old | new
    · exact closed g old
    · exact List.mem_singleton.mp new ▸ block

/-- Closed instructions have lines, and the blocks they load are closed, by induction on them. -/
theorem body_closed (closed : store.Closed) {code : List Instruction}
    (instructions : ∀ i ∈ code, i.Closed store.symbols) (pad : String) (number : Nat)
    (lines : List String) {blocks : List Function}
    (loaded : ∀ g ∈ blocks, g.chunk.Closed store.symbols)
    : ∃ listed, body (some store) pad number lines blocks (code.map .ok) = .ok listed
        ∧ ∀ g ∈ listed.2, g.chunk.Closed store.symbols := by
  induction code generalizing number lines blocks with
  | nil => exact ⟨_, rfl, loaded⟩
  | cons i code ih =>
      obtain ⟨here, later⟩ := List.forall_mem_cons.mp instructions
      obtain ⟨block?, loads, block⟩ := loadedBlock?_closed closed here
      rw [List.map_cons, body, loads]
      cases block? with
      | none => exact ih later _ _ loaded
      | some f => exact ih later _ _ (addBlock_closed loaded (block f rfl))

theorem mapM_ok {lines : Function → Except ListingFault (List String)} {blocks : List Function}
    (each : ∀ f ∈ blocks, ∃ listed, lines f = .ok listed)
    : ∃ all, blocks.mapM lines = .ok all := by
  induction blocks with
  | nil => exact ⟨[], rfl⟩
  | cons f blocks ih =>
      obtain ⟨⟨listed, first⟩, later⟩ := List.forall_mem_cons.mp each
      obtain ⟨all, rest⟩ := ih later
      exact ⟨listed :: all, by rw [List.mapM_cons, first, rest]; rfl⟩

/-- Closed code has lines to any depth, by induction on the depth. -/
theorem linesTo_closed (closed : store.Closed) (depth indent : Nat) {chunk : Chunk}
    (code : chunk.Closed store.symbols)
    : ∃ lines, linesTo (some store) depth indent chunk = .ok lines := by
  induction depth generalizing indent chunk with
  | zero => exact ⟨[], rfl⟩
  | succ depth ih =>
      obtain ⟨instructions, encodes, each⟩ := code
      rw [linesTo, encodes.bytes, decodeEach_encode encodes.fits]
      generalize String.ofList (List.replicate (2 * indent) ' ') = pad
      obtain ⟨listed, lines, blocks⟩ := body_closed closed each pad 0 [] (List.forall_mem_nil _)
      have nested : ∀ f ∈ listed.2, ∃ lines,
          (do
            let below ← linesTo (some store) depth (indent + 1) f.chunk
            return (pad ++ "-- " ++ f.text ++ " --") :: below) = .ok lines := by
        intro f member
        obtain ⟨below, found⟩ := ih (indent + 1) (blocks f member)
        exact ⟨_, by rw [found]; rfl⟩
      obtain ⟨all, below⟩ := mapM_ok nested
      refine ⟨listed.1 ++ all.flatten, ?_⟩
      rw [lines]
      simp only [bind, Except.bind] at below ⊢
      rw [below]
      rfl

end Listing

/-- Closed code over a closed store has a listing. -/
theorem Chunk.listing_closed {store : Store} (closed : store.Closed) {chunk : Chunk}
    (code : chunk.Closed store.symbols) (indent : Nat)
    : ∃ text, chunk.listing (some store) indent = .ok text := by
  obtain ⟨lines, listed⟩ := Listing.linesTo_closed closed (store.size + 1) indent code
  refine ⟨"\n".intercalate lines, ?_⟩
  simp only [listing, Option.map_some, Option.getD_some, listed]
  rfl

end StackText
