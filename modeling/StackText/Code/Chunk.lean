/-! Compiled code: a sequence of instructions of five bytes each, an opcode and the id of a slot
as four bytes with the most significant first. Literals and nested blocks live in the store, so
code needs no constants of its own.
-/

namespace StackText

/-- What an instruction does with its slot: push its value, apply its value, or pop into it. -/
inductive Opcode where
  | load
  | apply
  | assign
  deriving DecidableEq, Repr

namespace Opcode

/-- The byte that stands for an opcode. -/
def byte : Opcode → UInt8
  | .load => 1
  | .apply => 2
  | .assign => 3

/-- The opcode that a byte stands for. -/
def ofByte? (byte : UInt8) : Option Opcode :=
  if byte = 1 then some .load
  else if byte = 2 then some .apply
  else if byte = 3 then some .assign
  else none

/-- The mnemonic of an opcode. -/
def name : Opcode → String
  | .load => "LOAD"
  | .apply => "APP"
  | .assign => "SET"

end Opcode

/-- An opcode and the id of the slot it works on. -/
structure Instruction where
  op : Opcode
  id : Nat
  deriving DecidableEq, Repr

/-- One more than the greatest id that an instruction can hold. -/
def idLimit : Nat := 0x100000000

/-- The four bytes of an id. -/
def idBytes (id : Nat) : List UInt8 :=
  [(id / 0x1000000).toUInt8, (id / 0x10000).toUInt8, (id / 0x100).toUInt8, id.toUInt8]

/-- The id in four bytes. -/
def idOfBytes (b₃ b₂ b₁ b₀ : UInt8) : Nat :=
  ((b₃.toNat * 0x100 + b₂.toNat) * 0x100 + b₁.toNat) * 0x100 + b₀.toNat

/-- Why code cannot be written or read. -/
inductive CodeFault where
  /-- A number that is no byte. -/
  | byteOutOfRange
  /-- An id too large, or negative, for an instruction. -/
  | idOutOfRange (id : Int)
  /-- A byte that stands for no opcode. -/
  | unknownOpcode (byte : UInt8)
  /-- Code that ends inside an instruction. -/
  | cutShort
  deriving DecidableEq, Repr

/-- Compiled code. -/
structure Chunk where
  bytes : Array UInt8 := #[]
  deriving DecidableEq, Repr

namespace Chunk

/-- The code as a list of bytes. -/
def toList (chunk : Chunk) : List UInt8 := chunk.bytes.toList

/-- The number of whole instructions. -/
def size (chunk : Chunk) : Nat := chunk.bytes.size / 5

/-- Appends one byte. -/
def pushByte (chunk : Chunk) (byte : UInt8) : Chunk :=
  ⟨chunk.bytes.push byte⟩

/-- Appends one byte, given as a number. -/
def pushNumber (chunk : Chunk) (n : Int) : Except CodeFault Chunk :=
  if 0 ≤ n ∧ n < 0x100 then .ok (chunk.pushByte n.toNat.toUInt8) else .error .byteOutOfRange

/-- Appends an id. -/
@[inline] def pushId (chunk : Chunk) (id : Int) : Except CodeFault Chunk :=
  if 0 ≤ id ∧ id.toNat < idLimit then .ok ⟨chunk.bytes ++ idBytes id.toNat⟩
  else .error (.idOutOfRange id)

/-- Appends an instruction. The opcode comes first, and it stays if the id does not fit. -/
def emit (chunk : Chunk) (op : Opcode) (id : Int) : Chunk × Option CodeFault :=
  let chunk := chunk.pushByte op.byte
  match chunk.pushId id with
  | .ok chunk => (chunk, none)
  | .error fault => (chunk, some fault)

/-- The byte at an offset, where a negative offset counts back from the end. -/
def byteAt? (chunk : Chunk) (offset : Int) : Option UInt8 :=
  let offset := if offset < 0 then offset + chunk.bytes.size else offset
  if offset < 0 then none else chunk.bytes[offset.toNat]?

/-- The id in the four bytes from an offset on. -/
def idAt (chunk : Chunk) (offset : Int) : Except CodeFault Nat :=
  match chunk.byteAt? offset, chunk.byteAt? (offset + 1), chunk.byteAt? (offset + 2),
    chunk.byteAt? (offset + 3) with
  | some b₃, some b₂, some b₁, some b₀ => .ok (idOfBytes b₃ b₂ b₁ b₀)
  | _, _, _, _ => .error .cutShort

end Chunk

/-- The instructions of some code in order. A fault ends the list; the opcode of an instruction
is looked at before its id.
-/
def decodeEach : List UInt8 → List (Except CodeFault Instruction)
  | [] => []
  | op :: b₃ :: b₂ :: b₁ :: b₀ :: rest =>
      match Opcode.ofByte? op with
      | some op => .ok ⟨op, idOfBytes b₃ b₂ b₁ b₀⟩ :: decodeEach rest
      | none => [.error (.unknownOpcode op)]
  | op :: _ =>
      match Opcode.ofByte? op with
      | some _ => [.error .cutShort]
      | none => [.error (.unknownOpcode op)]

/-- All instructions of a chunk, or the first fault. -/
def Chunk.instructions (chunk : Chunk) : Except CodeFault (List Instruction) :=
  (decodeEach chunk.toList).mapM id

end StackText
