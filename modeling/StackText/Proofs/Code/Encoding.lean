import StackText.Code.Chunk

/-! Instructions and their bytes. Code that was put together one instruction at a time decodes to
just those instructions, code that decodes was put together from what it decodes to, and code joins
as its instructions do.
-/

namespace StackText

/-- The five bytes of an instruction. -/
def Instruction.bytes (i : Instruction) : List UInt8 := i.op.byte :: idBytes i.id

/-- The bytes of instructions in order. -/
def encode (code : List Instruction) : List UInt8 := code.flatMap Instruction.bytes

@[simp] theorem Opcode.ofByte?_byte (op : Opcode)
    : Opcode.ofByte? op.byte = some op := by
  cases op <;> decide

theorem idOfBytes_idBytes {id : Nat} (fits : id < idLimit)
    : idOfBytes (id / 0x1000000).toUInt8 (id / 0x10000).toUInt8 (id / 0x100).toUInt8 id.toUInt8
      = id := by
  simp only [idLimit] at fits
  simp only [idOfBytes, Nat.toUInt8, UInt8.toNat_ofNat']
  omega

theorem idBytes_idOfBytes (b₃ b₂ b₁ b₀ : UInt8)
    : idBytes (idOfBytes b₃ b₂ b₁ b₀) = [b₃, b₂, b₁, b₀] := by
  have h₃ := b₃.toNat_lt
  have h₂ := b₂.toNat_lt
  have h₁ := b₁.toNat_lt
  have h₀ := b₀.toNat_lt
  simp only [idBytes, idOfBytes, List.cons.injEq, ← UInt8.toNat_inj, Nat.toUInt8,
    UInt8.toNat_ofNat', and_true]
  omega

theorem idOfBytes_lt (b₃ b₂ b₁ b₀ : UInt8)
    : idOfBytes b₃ b₂ b₁ b₀ < idLimit := by
  have h₃ := b₃.toNat_lt
  have h₂ := b₂.toNat_lt
  have h₁ := b₁.toNat_lt
  have h₀ := b₀.toNat_lt
  simp only [idOfBytes, idLimit]
  omega

theorem Opcode.byte_of_ofByte? {byte : UInt8} {op : Opcode} (known : ofByte? byte = some op)
    : op.byte = byte := by
  unfold ofByte? at known
  split at known
  · next same => cases known; exact same.symm
  · split at known
    · next same => cases known; exact same.symm
    · split at known
      · next same => cases known; exact same.symm
      · cases known

@[simp] theorem encode_nil
    : encode [] = [] :=
  rfl

@[simp] theorem encode_cons (i : Instruction) (code : List Instruction)
    : encode (i :: code) = i.bytes ++ encode code :=
  rfl

@[simp] theorem encode_append (front back : List Instruction)
    : encode (front ++ back) = encode front ++ encode back :=
  List.flatMap_append

@[simp] theorem encode_eq_nil {code : List Instruction}
    : encode code = [] ↔ code = [] := by
  cases code <;> simp [Instruction.bytes]

/-- Decoding undoes encoding where every id fits, by induction on the instructions. -/
theorem decodeEach_encode {code : List Instruction} (fits : ∀ i ∈ code, i.id < idLimit)
    : decodeEach (encode code) = code.map .ok := by
  induction code with
  | nil => rfl
  | cons i code ih =>
      have first := idOfBytes_idBytes (fits i (by simp))
      have later := ih fun j member => fits j (by simp [member])
      simp [Instruction.bytes, idBytes, decodeEach, first, later]

/-- Bytes that decode without a fault are those of the instructions they decode to, by induction
along the decoding.
-/
theorem encode_of_decodeEach {bytes : List UInt8} {code : List Instruction}
    (decodes : (decodeEach bytes).mapM id = .ok code)
    : bytes = encode code ∧ ∀ i ∈ code, i.id < idLimit := by
  fun_induction decodeEach bytes generalizing code with
  | case1 => cases decodes; simp
  | case2 byte b₃ b₂ b₁ b₀ rest op known ih =>
      rw [List.mapM_cons] at decodes
      cases later : (decodeEach rest).mapM id with
      | error fault => rw [later] at decodes; cases decodes
      | ok more =>
          rw [later] at decodes
          cases decodes
          obtain ⟨bytes, fits⟩ := ih later
          constructor
          · simp [Instruction.bytes, Opcode.byte_of_ofByte? known, idBytes_idOfBytes, bytes]
          · simpa [idOfBytes_lt] using fits
  | case3 | case4 | case5 => cases decodes

namespace Chunk

/-- Code followed by code. -/
instance : Append Chunk := ⟨fun front back => ⟨front.bytes ++ back.bytes⟩⟩

@[simp] theorem toList_append (front back : Chunk)
    : (front ++ back).toList = front.toList ++ back.toList :=
  Array.toList_append

/-- Appends an instruction whose id fits. -/
def push (chunk : Chunk) (i : Instruction) : Chunk :=
  ⟨chunk.bytes.push i.op.byte ++ idBytes i.id⟩

@[simp] theorem toList_push (chunk : Chunk) (i : Instruction)
    : (chunk.push i).toList = chunk.toList ++ i.bytes := by
  simp [push, toList, Instruction.bytes]

@[simp] theorem toList_pushByte (chunk : Chunk) (byte : UInt8)
    : (chunk.pushByte byte).toList = chunk.toList ++ [byte] :=
  Array.toList_push

theorem eq_of_toList {chunk other : Chunk} (same : chunk.toList = other.toList)
    : chunk = other := by
  cases chunk
  cases other
  exact congrArg Chunk.mk (Array.toList_inj.mp same)

@[simp] theorem append_empty (chunk : Chunk)
    : chunk ++ ({} : Chunk) = chunk :=
  eq_of_toList (by rw [toList_append]; simp [toList])

theorem append_push (front back : Chunk) (i : Instruction)
    : front ++ back.push i = (front ++ back).push i :=
  eq_of_toList (by simp)

theorem append_pushByte (front back : Chunk) (byte : UInt8)
    : front ++ back.pushByte byte = (front ++ back).pushByte byte :=
  eq_of_toList (by simp)

theorem emit_of_fits {i : Instruction} (fits : i.id < idLimit) (chunk : Chunk)
    : chunk.emit i.op i.id = (chunk.push i, none) := by
  have range : (0 : Int) ≤ i.id ∧ (i.id : Int).toNat < idLimit := by omega
  rw [emit, pushId, if_pos range]
  rfl

theorem emit_of_not_fits {i : Instruction} (large : ¬i.id < idLimit) (chunk : Chunk)
    : chunk.emit i.op i.id = (chunk.pushByte i.op.byte, some (.idOutOfRange i.id)) := by
  rw [emit, pushId, if_neg (by omega)]

/-- (chunk.Encodes code) holds if the chunk consists of just these instructions, and every id
fits in its bytes.
-/
structure Encodes (chunk : Chunk) (code : List Instruction) : Prop where
  bytes : chunk.toList = encode code
  fits : ∀ i ∈ code, i.id < idLimit

theorem Encodes.empty
    : Encodes {} [] :=
  ⟨rfl, by simp⟩

theorem Encodes.push {chunk : Chunk} {code : List Instruction} (encodes : chunk.Encodes code)
    {i : Instruction} (fits : i.id < idLimit)
    : (chunk.push i).Encodes (code ++ [i]) := by
  refine ⟨by simp [encodes.bytes], ?_⟩
  intro j member
  rcases List.mem_append.mp member with earlier | last
  · exact encodes.fits j earlier
  · exact List.mem_singleton.mp last ▸ fits

theorem Encodes.append {front back : Chunk} {code later : List Instruction}
    (encodes : front.Encodes code) (next : back.Encodes later)
    : (front ++ back).Encodes (code ++ later) := by
  refine ⟨by simp [encodes.bytes, next.bytes], ?_⟩
  intro i member
  exact (List.mem_append.mp member).elim (encodes.fits i) (next.fits i)

theorem mapM_id_map_ok (code : List Instruction)
    : (code.map (Except.ok (ε := CodeFault))).mapM id = .ok code := by
  induction code with
  | nil => rfl
  | cons i code ih =>
      rw [List.map_cons, List.mapM_cons, ih]
      rfl

/-- A chunk decodes to the instructions it encodes. -/
theorem Encodes.instructions_eq {chunk : Chunk} {code : List Instruction}
    (encodes : chunk.Encodes code)
    : chunk.instructions = .ok code := by
  rw [instructions, encodes.bytes, decodeEach_encode encodes.fits]
  exact mapM_id_map_ok code

/-- A chunk that decodes encodes what it decodes to. -/
theorem encodes_of_instructions {chunk : Chunk} {code : List Instruction}
    (decodes : chunk.instructions = .ok code)
    : chunk.Encodes code :=
  ⟨(encode_of_decodeEach decodes).1, (encode_of_decodeEach decodes).2⟩

-----------------------------------------------------------------------------------------
-- Code made of given instructions
-----------------------------------------------------------------------------------------

/-- (chunk.MadeOf good) holds if the chunk is a sequence of instructions that are all good. -/
def MadeOf (good : Instruction → Prop) (chunk : Chunk) : Prop :=
  ∃ code, chunk.Encodes code ∧ ∀ i ∈ code, good i

theorem MadeOf.mono {good better : Instruction → Prop} {chunk : Chunk}
    (made : chunk.MadeOf good) (implies : ∀ i, good i → better i)
    : chunk.MadeOf better := by
  obtain ⟨code, encodes, each⟩ := made
  exact ⟨code, encodes, fun i member => implies i (each i member)⟩

theorem madeOf_empty (good : Instruction → Prop)
    : MadeOf good {} :=
  ⟨[], .empty, by simp⟩

theorem MadeOf.push {good : Instruction → Prop} {chunk : Chunk} (made : chunk.MadeOf good)
    {i : Instruction} (instruction : good i) (fits : i.id < idLimit)
    : (chunk.push i).MadeOf good := by
  obtain ⟨code, encodes, each⟩ := made
  refine ⟨code ++ [i], encodes.push fits, ?_⟩
  intro j member
  rcases List.mem_append.mp member with earlier | last
  · exact each j earlier
  · exact List.mem_singleton.mp last ▸ instruction

end Chunk

end StackText
