import StackText.Proofs.Machine.WellFormedCode

/-! Code and its instructions determine each other, and every reader of code finds the same
instructions in it: the decoder of a whole chunk, the reader of single ids, and the machine that
takes one instruction after another from a frame.
-/

namespace StackText

theorem Opcode.ofByte?_ne_none {byte : UInt8} (known : byte = 1 ∨ byte = 2 ∨ byte = 3)
    : ofByte? byte ≠ none := by
  rcases known with rfl | rfl | rfl <;> simp [ofByte?]

theorem Instruction.length_bytes (i : Instruction)
    : i.bytes.length = 5 :=
  rfl

theorem length_encode (code : List Instruction)
    : (encode code).length = 5 * code.length := by
  induction code with
  | nil => rfl
  | cons i code ih =>
      rw [encode_cons, List.length_append, i.length_bytes, ih, List.length_cons]
      omega

/-- Behind the first instructions, code goes on with the bytes of the next. -/
theorem drop_encode (code : List Instruction) (k : Nat)
    : (encode code).drop (5 * k) = encode (code.drop k) := by
  induction k generalizing code with
  | zero => rfl
  | succ k ih =>
      cases code with
      | nil => simp
      | cons i code =>
          rw [encode_cons, Nat.mul_succ, Nat.add_comm, ← i.length_bytes,
            List.drop_length_add_append, List.drop_succ_cons, i.length_bytes]
          exact ih code

-----------------------------------------------------------------------------------------
-- Code that decodes
-----------------------------------------------------------------------------------------

/-- (Aligned bytes) holds if the bytes divide into fives, each of which starts with an opcode. -/
def Aligned (bytes : List UInt8) : Prop :=
  5 ∣ bytes.length ∧ ∀ k byte, bytes[5 * k]? = some byte → byte = 1 ∨ byte = 2 ∨ byte = 3

theorem aligned_encode (code : List Instruction)
    : Aligned (encode code) := by
  refine ⟨⟨_, length_encode code⟩, ?_⟩
  intro k byte found
  have first : (encode (code.drop k))[0]? = some byte := by
    rw [← drop_encode, List.getElem?_drop]
    exact found
  cases later : code.drop k with
  | nil => rw [later] at first; cases first
  | cons i rest =>
      rw [later] at first
      cases first
      cases i.op <;> simp [Opcode.byte]

/-- Aligned bytes decode, by induction along the decoding: no five of them starts with an unknown
opcode, and none is left over.
-/
theorem exists_decodes_of_aligned {bytes : List UInt8} (aligned : Aligned bytes)
    : ∃ code, (decodeEach bytes).mapM id = .ok code := by
  obtain ⟨fives, opcodes⟩ := aligned
  fun_induction decodeEach bytes with
  | case1 => exact ⟨[], rfl⟩
  | case2 byte b₃ b₂ b₁ b₀ rest op known ih =>
      obtain ⟨code, decodes⟩ := ih
        (by simp only [List.length_cons] at fives; omega)
        (fun k byte found => opcodes (k + 1) byte (by simpa [Nat.mul_succ] using found))
      refine ⟨⟨op, idOfBytes b₃ b₂ b₁ b₀⟩ :: code, ?_⟩
      rw [List.mapM_cons, decodes]
      rfl
  | case3 byte b₃ b₂ b₁ b₀ rest unknown =>
      exact absurd unknown (Opcode.ofByte?_ne_none (opcodes 0 byte rfl))
  | case4 byte rest part op known =>
      rcases rest with _ | ⟨b₃, _ | ⟨b₂, _ | ⟨b₁, _ | ⟨b₀, rest⟩⟩⟩⟩
      case cons.cons.cons.cons => exact (part b₃ b₂ b₁ b₀ rest rfl).elim
      all_goals simp only [List.length_cons, List.length_nil] at fives; omega
  | case5 byte rest part unknown =>
      exact absurd unknown (Opcode.ofByte?_ne_none (opcodes 0 byte rfl))

theorem Chunk.exists_instructions_iff {chunk : Chunk}
    : (∃ code, chunk.instructions = .ok code) ↔ Aligned chunk.toList := by
  constructor
  · rintro ⟨code, decodes⟩
    rw [(encodes_of_instructions decodes).bytes]
    exact aligned_encode code
  · exact exists_decodes_of_aligned

-----------------------------------------------------------------------------------------
-- Code that is put together
-----------------------------------------------------------------------------------------

namespace Chunk

/-- The code with one more instruction, if its id fits. -/
def extend (chunk : Chunk) (i : Instruction) : Except CodeFault Chunk :=
  match chunk.emit i.op i.id with
  | (chunk, none) => .ok chunk
  | (_, some fault) => .error fault

/-- The code put together from instructions, from the first to the last. -/
def assemble (code : List Instruction) : Except CodeFault Chunk := code.foldlM extend {}

theorem extend_of_fits {i : Instruction} (fits : i.id < idLimit) (chunk : Chunk)
    : chunk.extend i = .ok (chunk.push i) := by
  rw [extend, emit_of_fits fits]

theorem extend_of_not_fits {i : Instruction} (large : ¬i.id < idLimit) (chunk : Chunk)
    : chunk.extend i = .error (.idOutOfRange i.id) := by
  rw [extend, emit_of_not_fits large]

theorem foldlM_extend_of_fits {code : List Instruction} (fits : ∀ i ∈ code, i.id < idLimit)
    (chunk : Chunk)
    : ∃ whole, code.foldlM extend chunk = .ok whole
      ∧ whole.toList = chunk.toList ++ encode code := by
  induction code generalizing chunk with
  | nil => exact ⟨chunk, rfl, by simp⟩
  | cons i code ih =>
      obtain ⟨first, later⟩ := List.forall_mem_cons.mp fits
      obtain ⟨whole, emitted, bytes⟩ := ih later (chunk.push i)
      refine ⟨whole, ?_, by simp [bytes]⟩
      rw [List.foldlM_cons, extend_of_fits first]
      exact emitted

theorem fits_of_foldlM_extend {code : List Instruction} {chunk whole : Chunk}
    (emitted : code.foldlM extend chunk = .ok whole)
    : ∀ i ∈ code, i.id < idLimit := by
  induction code generalizing chunk with
  | nil => simp
  | cons i code ih =>
      rw [List.foldlM_cons] at emitted
      by_cases fits : i.id < idLimit
      · rw [extend_of_fits fits] at emitted
        exact List.forall_mem_cons.mpr ⟨fits, ih emitted⟩
      · rw [extend_of_not_fits fits] at emitted
        cases emitted

/-- Putting code together gives the one chunk that consists of the instructions, and fails only if
an id does not fit.
-/
theorem assemble_eq_ok_iff {code : List Instruction} {chunk : Chunk}
    : assemble code = .ok chunk ↔ chunk.Encodes code := by
  constructor
  · intro emitted
    have fits := fits_of_foldlM_extend emitted
    obtain ⟨whole, again, bytes⟩ := foldlM_extend_of_fits fits {}
    cases emitted.symm.trans again
    exact ⟨bytes, fits⟩
  · intro encodes
    obtain ⟨whole, emitted, bytes⟩ := foldlM_extend_of_fits encodes.fits {}
    have same : whole = chunk := eq_of_toList (bytes.trans encodes.bytes.symm)
    exact same ▸ emitted

theorem Encodes.size_eq {chunk : Chunk} {code : List Instruction} (encodes : chunk.Encodes code)
    : chunk.size = code.length := by
  have bytes : chunk.bytes.size = 5 * code.length := by
    rw [← length_encode, ← encodes.bytes]
    rfl
  rw [size, bytes]
  omega

-----------------------------------------------------------------------------------------
-- Code that runs
-----------------------------------------------------------------------------------------

/-- The code that a call has left behind its first instructions. -/
def behind (chunk : Chunk) (k : Nat) : List UInt8 := chunk.toList.drop (5 * k)

/-- (chunk.FetchesAt k i) holds if the instruction is found at its place by reading there the
opcode and behind it the id, and also by a machine: its innermost call, come to that place, carries
out the instruction and goes on behind it.
-/
structure FetchesAt (chunk : Chunk) (k : Nat) (i : Instruction) : Prop where
  opcode : (chunk.byteAt? (5 * k)).bind Opcode.ofByte? = some i.op
  id : chunk.idAt (5 * k + 1) = .ok i.id
  step (m : Machine) (callers : List (List UInt8))
    : { m with frames := chunk.behind k :: callers }.step
      = { m with frames := chunk.behind (k + 1) :: callers }.execute i

/-- The bytes of an instruction are read from its place on. -/
theorem byteAt?_eq_behind (chunk : Chunk) (k j : Nat) {offset : Int} (place : offset = 5 * k + j)
    : chunk.byteAt? offset = (chunk.behind k)[j]? := by
  have inside : ¬offset < 0 := by omega
  have same : offset.toNat = 5 * k + j := by omega
  simp only [byteAt?, if_neg inside, same, behind, toList, List.getElem?_drop,
    Array.getElem?_toList]

theorem Encodes.behind_eq {chunk : Chunk} {code : List Instruction} (encodes : chunk.Encodes code)
    (k : Nat)
    : chunk.behind k = encode (code.drop k) := by
  rw [behind, encodes.bytes, drop_encode]

/-- At the place of an instruction stand its own bytes, whichever way they are read. -/
theorem Encodes.fetchesAt {chunk : Chunk} {code : List Instruction} (encodes : chunk.Encodes code)
    {k : Nat} {i : Instruction} (found : code[k]? = some i)
    : chunk.FetchesAt k i := by
  obtain ⟨inside, rfl⟩ := List.getElem?_eq_some_iff.mp found
  have fits := encodes.fits _ (List.getElem_mem inside)
  have whole : chunk.behind k = encode (code[k] :: code.drop (k + 1)) := by
    rw [encodes.behind_eq, List.drop_eq_getElem_cons inside]
  constructor
  · rw [chunk.byteAt?_eq_behind k 0 (by omega), whole]
    exact Opcode.ofByte?_byte _
  · rw [idAt, chunk.byteAt?_eq_behind k 1 (by omega),
      chunk.byteAt?_eq_behind k 2 (by omega), chunk.byteAt?_eq_behind k 3 (by omega),
      chunk.byteAt?_eq_behind k 4 (by omega), whole]
    exact congrArg Except.ok (idOfBytes_idBytes fits)
  · intro m callers
    simp only [whole, encodes.behind_eq, Machine.step, Instruction.bytes_eq, encode_cons,
      List.cons_append, List.nil_append, Opcode.ofByte?_byte, idOfBytes_idBytes fits]

/-- Only one instruction is found at a place. -/
theorem FetchesAt.unique {chunk : Chunk} {k : Nat} {i j : Instruction}
    (first : chunk.FetchesAt k i) (second : chunk.FetchesAt k j)
    : i = j := by
  have op := Option.some.inj (first.opcode.symm.trans second.opcode)
  have id := Except.ok.inj (first.id.symm.trans second.id)
  cases i
  cases j
  cases op
  cases id
  rfl

theorem Encodes.fetchesAt_iff {chunk : Chunk} {code : List Instruction}
    (encodes : chunk.Encodes code) {k : Nat} {i : Instruction}
    : chunk.FetchesAt k i ↔ code[k]? = some i := by
  constructor
  · intro fetches
    cases found : code[k]? with
    | some j => rw [fetches.unique (encodes.fetchesAt found)]
    | none =>
        have past : chunk.behind k = [] := by
          rw [encodes.behind_eq, List.drop_eq_nil_of_le (List.getElem?_eq_none_iff.mp found)]
          rfl
        have opcode := fetches.opcode
        rw [chunk.byteAt?_eq_behind k 0 (by omega), past] at opcode
        cases opcode
  · exact encodes.fetchesAt

/-- Instructions whose ids fit can be put together and are decoded again, as many as they were. The
bytes that decode are the aligned ones, and they decode to just the instructions they are put
together from. Each of these is found at its place and nothing else is, by reading there and by
running.
-/
theorem instructions_bijective
    : (∀ code : List Instruction, (∀ i ∈ code, i.id < idLimit)
        → ∃ chunk,
            assemble code = .ok chunk
            ∧ chunk.instructions = .ok code
            ∧ chunk.size = code.length)
      ∧ ∀ chunk : Chunk,
          ((∃ code, chunk.instructions = .ok code) ↔ Aligned chunk.toList)
          ∧ ∀ code,
              (chunk.instructions = .ok code ↔ assemble code = .ok chunk)
              ∧ (chunk.instructions = .ok code
                → ∀ k i, chunk.FetchesAt k i ↔ code[k]? = some i) := by
  constructor
  · intro code fits
    obtain ⟨chunk, emitted, bytes⟩ := foldlM_extend_of_fits fits {}
    have encodes : chunk.Encodes code := ⟨bytes, fits⟩
    exact ⟨chunk, emitted, encodes.instructions_eq, encodes.size_eq⟩
  · intro chunk
    refine ⟨exists_instructions_iff, ?_⟩
    intro code
    constructor
    · rw [assemble_eq_ok_iff]
      exact ⟨encodes_of_instructions, Encodes.instructions_eq⟩
    · intro decodes k i
      exact (encodes_of_instructions decodes).fetchesAt_iff

/-- The greatest id takes all four bytes; the id behind it has four different ones. -/
theorem instructions_bijective_four_byte_ids
    : let code : List Instruction := [⟨.apply, 0xFFFFFFFF⟩, ⟨.assign, 0x01020304⟩]
      let chunk : Chunk := ⟨#[2, 255, 255, 255, 255, 3, 1, 2, 3, 4]⟩
      (∃ whole,
        assemble code = .ok whole ∧ whole.instructions = .ok code ∧ whole.size = code.length)
      ∧ Aligned chunk.toList
      ∧ assemble code = .ok chunk
      ∧ chunk.FetchesAt 1 ⟨.assign, 0x01020304⟩ := by
  intro code chunk
  have decodes : chunk.instructions = .ok code := rfl
  obtain ⟨decodable, back⟩ := instructions_bijective.2 chunk
  obtain ⟨assembled, fetched⟩ := back code
  refine ⟨instructions_bijective.1 code (by decide), decodable.mp ⟨code, decodes⟩, ?_, ?_⟩
  · exact assembled.mp decodes
  · exact (fetched decodes 1 _).mpr rfl

end Chunk

end StackText
