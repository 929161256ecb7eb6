import StackText.Store.Basic
import StackText.Text.Quoted
import StackText.Value.Render

/-! Listings of code: one line for each instruction, and below them the blocks that the code
loads, further to the right.
-/

namespace StackText

/-- Why code has no listing. -/
inductive ListingFault where
  | code (fault : CodeFault)
  /-- Code that loads a slot which does not exist. -/
  | unallocated (id : Nat)
  /-- Blocks that nest deeper than there is room for calls. -/
  | tooDeep
  deriving DecidableEq, Repr

namespace Listing

/-- A number with leading zeros to four digits. -/
def lineNumber (n : Nat) : String :=
  let digits := Nat.toDigits 10 n
  String.ofList (List.replicate (4 - digits.length) '0' ++ digits)

/-- What a listing says of a slot: its name, or else its value. Nothing is said of a slot that
does not exist.
-/
def describe (store : Store) (id : Nat) : String :=
  match store.name? id, store.get? id with
  | some name, _ => " (" ++ name ++ ")"
  | none, some (.str text) => " " ++ Text.quoted text
  | none, some v => " " ++ v.render
  | none, none => ""

/-- The block that an instruction loads from an unnamed slot, if it does. -/
def loadedBlock? (store : Store) (i : Instruction) : Except ListingFault (Option Function) :=
  match i.op, store.name? i.id with
  | .load, none =>
      match store.get? i.id with
      | some (.func f) => .ok (some f)
      | some _ => .ok none
      | none => .error (.unallocated i.id)
  | _, _ => .ok none

/-- The line of an instruction, with its number. -/
def line (store : Option Store) (pad : String) (number : Nat) (i : Instruction) : String :=
  let note := (store.map (describe · i.id)).getD ""
  pad ++ lineNumber number ++ s!": {i.op.name} {i.id}" ++ note

/-- Adds a block unless it is already there. -/
def addBlock (blocks : List Function) (f : Function) : List Function :=
  if blocks.any (·.identity = f.identity) then blocks else blocks ++ [f]

/-- The lines of some code and the blocks that it loads, each once. Faults are met in the order
of the code.
-/
def body (store : Option Store) (pad : String) (number : Nat) (lines : List String)
    (blocks : List Function)
    : List (Except CodeFault Instruction) → Except ListingFault (List String × List Function)
  | [] => .ok (lines.reverse, blocks)
  | .error fault :: _ => .error (.code fault)
  | .ok i :: rest =>
      let lines := line store pad number i :: lines
      match store with
      | none => body store pad (number + 1) lines blocks rest
      | some s =>
          match loadedBlock? s i with
          | .error fault => .error fault
          | .ok none => body store pad (number + 1) lines blocks rest
          | .ok (some f) => body store pad (number + 1) lines (addBlock blocks f) rest

/-- The lines of a listing. A block lists the blocks it loads below itself, to the given depth. -/
def linesTo (store : Option Store) : Nat → Nat → Chunk → Except ListingFault (List String)
  | 0, _, _ => .ok []
  | depth + 1, indent, chunk => do
      let pad := String.ofList (List.replicate (2 * indent) ' ')
      let (lines, blocks) ← body store pad 0 [] [] (decodeEach chunk.toList)
      let nested ← blocks.mapM fun f => do
        let below ← linesTo store depth (indent + 1) f.chunk
        return (pad ++ "-- " ++ f.text ++ " --") :: below
      return lines ++ nested.flatten

/-- How deep the calls nest that write the line of an instruction. A number without a name takes
more of them than other values.
-/
def lineCalls (store : Store) (i : Instruction) : Nat :=
  match store.name? i.id, store.get? i.id with
  | none, some (.int _) | none, some (.float ..) => 6
  | _, _ => 4

/-- How deep the calls nest that list some code and the blocks in it, to the given depth. -/
def calls (store : Store) : Nat → Chunk → Nat
  | 0, _ => 0
  | depth + 1, chunk =>
      let code := chunk.instructions.toOption.getD []
      let blocks := code.filterMap fun i => (loadedBlock? store i).toOption.join
      let lines := (code.map (lineCalls store)).foldl max 1
      (blocks.map fun f => calls store depth f.chunk + 1).foldl max lines

end Listing

/-- The listing of a chunk. Without a store it shows the bare instructions. A block is compiled
before the block around it, so the number of slots bounds the depth of nesting.
-/
def Chunk.listing (chunk : Chunk) (store : Option Store) (indent : Nat)
    : Except ListingFault String := do
  let depth := (store.map Store.size).getD 0 + 1
  return "\n".intercalate (← Listing.linesTo store depth indent chunk)

/-- How deep the calls nest that list a chunk. -/
def Chunk.listingCalls (chunk : Chunk) (store : Store) : Nat :=
  Listing.calls store (store.size + 1) chunk

end StackText
