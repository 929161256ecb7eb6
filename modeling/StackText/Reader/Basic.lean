import StackText.Reader.Fault
import StackText.Reader.Token
import StackText.Store.Basic

/-! The compiler. Text arrives in pieces: a whole file, or one line at a time. Tokens compile
straight into code over the store, and what the end of a piece leaves open is kept for the next.
-/

namespace StackText

/-- What a reader keeps between pieces of text. -/
structure Reader where
  /-- Text that is read again in front of the next piece: an unterminated string. -/
  held : List Char := []
  /-- The code of the blocks around the innermost open one, from the inside out. -/
  outer : List Chunk := []
  /-- The code of the innermost open block. -/
  chunk : Chunk := {}
  deriving DecidableEq, Repr

namespace Reader

/-- The number of open blocks. -/
def depth (reader : Reader) : Nat := reader.outer.length

/-- (reader.isPending) holds while a block or a string waits for more text. -/
def isPending (reader : Reader) : Bool := !reader.outer.isEmpty || !reader.held.isEmpty

/-- A reader that keeps nothing. -/
def fresh : Reader := {}

end Reader

/-- The code of all open blocks and the store it is compiled over. -/
structure Draft where
  store : Store
  outer : List Chunk
  chunk : Chunk

/-- Why compiling stops before the end of a text. -/
inductive Stoppage where
  | strayClose
  | unterminated (rest : List Char)
  | numeral (fault : Numeral.Fault)
  | code (fault : CodeFault)

namespace Draft

/-- Adds an instruction to the innermost block. -/
def emit : Draft → Instruction → Draft × Option Stoppage
  | ⟨store, outer, chunk⟩, i =>
      let (chunk, fault) := chunk.emit i.op i.id
      (⟨store, outer, chunk⟩, fault.map .code)

/-- Puts a value into a slot of its own and adds an instruction that loads it. The value may
depend on the slot.
-/
def literal : Draft → (Nat → Value) → Draft × Option Stoppage
  | ⟨store, outer, chunk⟩, value =>
      let (id, store) := store.alloc (value store.symbols.size)
      emit ⟨store, outer, chunk⟩ ⟨.load, id⟩

/-- Adds an instruction on the slot of a name. -/
def named : Draft → Opcode → String → Draft × Option Stoppage
  | ⟨store, outer, chunk⟩, op, name =>
      let (id, store) := store.intern name
      emit ⟨store, outer, chunk⟩ ⟨op, id⟩

/-- Compiles the meaning of a word. -/
def term (draft : Draft) : Term → Draft × Option Stoppage
  | .assign name => draft.named .assign name
  | .load name => draft.named .load name
  | .number (.int n) => draft.literal fun _ => .int n
  | .number (.float x) => draft.literal fun id => .float x (.slot id)
  | .call name => draft.named .apply name

/-- Compiles a word. -/
def word (draft : Draft) (text : List Char) : Draft × Option Stoppage :=
  match Term.ofWord text with
  | .ok meaning => draft.term meaning
  | .error fault => (draft, some (.numeral fault))

/-- Opens a block inside the innermost one. -/
def openBlock (draft : Draft) : Draft :=
  { draft with outer := draft.chunk :: draft.outer, chunk := {} }

/-- Closes the innermost block. It becomes a function in a slot of its own, which the block around
it loads.
-/
def closeBlock : Draft → Draft × Option Stoppage
  | ⟨store, chunk :: outer, block⟩ =>
      literal ⟨store, outer, chunk⟩ fun id => .func ⟨block, some id, .slot id⟩
  | draft => (draft, some .strayClose)

/-- Compiles a text up to its end, or to where it stops. -/
def parse (draft : Draft) : List Char → Draft × Option Stoppage
  | [] => (draft, none)
  | c :: rest =>
      if Text.isBlank c then draft.parse rest
      else if c = '#' then draft.parse ((rest.dropWhile (· ≠ '\n')).drop 1)
      else if isQuote c then
        match _found : Fenced.read? (c :: rest) with
        | none => (draft, some (.unterminated (c :: rest)))
        | some string =>
            match draft.literal fun _ => .str (String.ofList string.text) with
            | (draft, none) => draft.parse string.rest
            | stopped => stopped
      else if c = '(' then draft.openBlock.parse rest
      else if c = ')' then
        match draft.closeBlock with
        | (draft, none) => draft.parse rest
        | stopped => stopped
      else
        let word := Token.leadingWord (c :: rest)
        match draft.word word with
        | (draft, none) => draft.parse ((c :: rest).drop word.length)
        | stopped => stopped
termination_by text => text.length
decreasing_by
  · simp
  · have shorter := (List.dropWhile_suffix (l := rest) (· ≠ '\n')).length_le
    simp only [List.length_drop, List.length_cons]
    omega
  · exact Fenced.length_rest_read? _found
  · simp
  · simp
  · next visible code quote opening closing =>
      have plain := isSpecial_of_other visible code quote opening closing
      simp only [Token.leadingWord_cons plain, List.length_drop, List.length_cons]
      omega

end Draft

/-- What a reader makes of a piece of text. -/
structure Compiled where
  result : Except ReadFault Chunk
  reader : Reader
  store : Store

namespace Reader

/-- The string that an unterminated text opens. -/
def unfinishedString (rest : List Char) : Unfinished :=
  .string (rest.headD '\x27') (Fenced.openingRun rest)

/-- Compiles a piece of text together with what was kept. At the end of all text (final) whatever
is still open is a mistake, and a mistake clears the reader. A number that cannot be read leaves
the whole text to be read again behind the code it has given so far.
-/
def compile (reader : Reader) (store : Store) (piece : List Char) (final : Bool) : Compiled :=
  let text := reader.held ++ piece
  let start : Draft := ⟨store, reader.outer, reader.chunk⟩
  let (draft, stoppage) := start.parse text
  let keep (held : List Char) : Reader := ⟨held, draft.outer, draft.chunk⟩
  let unfinished (what : Unfinished) (held : List Char) : Compiled :=
    if final then ⟨.error (.malformed (.unfinished what)), fresh, draft.store⟩
    else ⟨.error (.incomplete what), keep held, draft.store⟩
  match stoppage with
  | some .strayClose => ⟨.error (.malformed .strayClose), fresh, draft.store⟩
  | some (.unterminated rest) => unfinished (unfinishedString rest) rest
  | some (.numeral fault) => ⟨.error (.numeral fault), keep text, draft.store⟩
  | some (.code fault) => ⟨.error (.code fault), keep text, draft.store⟩
  | none =>
      if draft.outer.isEmpty then ⟨.ok draft.chunk, fresh, draft.store⟩
      else unfinished (.blocks draft.outer.length) []

end Reader

end StackText
