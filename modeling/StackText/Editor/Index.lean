import StackText.Reader.Basic

/-! The index of a source text: what it defines, what it refers to and what is wrong with its
brackets and strings. Nothing is run.
-/

namespace StackText

/-- A place in a text, counted from zero. Only line feeds end lines. -/
structure Position where
  line : Nat
  column : Nat
  deriving DecidableEq, Repr

/-- A walk through a text: what is ahead, the offset, and the position there. -/
structure Walk where
  ahead : List Char
  offset : Nat := 0
  position : Position := ⟨0, 0⟩

/-- Passes one character. -/
def Walk.pass (walk : Walk) (c : Char) (ahead : List Char) : Walk :=
  {
    ahead
    offset := walk.offset + 1
    position :=
      if c = '\n' then ⟨walk.position.line + 1, 0⟩
      else ⟨walk.position.line, walk.position.column + 1⟩
  }

/-- Walks on for (count) characters. -/
def Walk.advance (walk : Walk) : Nat → Walk
  | 0 => walk
  | count + 1 =>
      match walk.ahead with
      | [] => walk
      | c :: ahead => (walk.pass c ahead).advance count

/-- The first assignment of a name. Right behind a block it defines a function. -/
structure Definition where
  name : String
  isFunction : Bool
  position : Position
  deriving DecidableEq, Repr

/-- The kind of a definition in messages. -/
def Definition.kind (d : Definition) : String := if d.isFunction then "function" else "var"

/-- A use of a name, by a call or by a load. -/
structure Reference where
  name : String
  isCall : Bool
  position : Position
  deriving DecidableEq, Repr

/-- The kind of a reference in messages. -/
def Reference.kind (r : Reference) : String := if r.isCall then "call" else "load"

/-- The index of a text. -/
structure Index where
  /-- The definitions, in the order of the text. -/
  definitions : Array Definition := #[]
  references : Array Reference := #[]
  /-- The number of brackets that are not closed. -/
  openBlocks : Nat := 0
  /-- The closing brackets that close nothing. -/
  strayCloses : Array Position := #[]
  /-- The start of a string that does not end. -/
  openString : Option Position := none
  /-- What the compiler says of the whole text. -/
  problem : Option String := none

namespace Index

/-- The definition of a name. -/
def definition? (index : Index) (name : String) : Option Definition :=
  index.definitions.find? (·.name = name)

/-- The builtin words with their stack effects, and a note where one is needed. -/
def signatures : List (String × String) := [
  ("+", "( a b -- a+b )"),
  ("-", "( a b -- a-b )"),
  ("*", "( a b -- a*b )"),
  ("/", "( a b -- a/b )  integer division truncates"),
  ("%", "( a b -- a%b )  sign of a"),
  ("==", "( a b -- 1|0 )"),
  ("!=", "( a b -- 1|0 )"),
  ("<", "( a b -- 1|0 )"),
  (">", "( a b -- 1|0 )"),
  ("<=", "( a b -- 1|0 )"),
  (">=", "( a b -- 1|0 )"),
  ("and", "( a b -- 1|0 )"),
  ("or", "( a b -- 1|0 )"),
  ("not", "( a -- 1|0 )"),
  ("neg", "( a -- -a )"),
  ("print", "( x -- )"),
  ("println", "( x -- )  with line break"),
  ("read", "( -- token )"),
  ("readln", "( -- line )"),
  ("exit", "( code -- )  terminates"),
  ("cons", "( a b -- (a . b) )"),
  ("car", "( (a . b) -- a )"),
  ("cdr", "( (a . b) -- b )")
]

/-- The stack effect of a builtin word. -/
def signature? (word : String) : Option String := signatures.lookup word

/-- The calls of names that are neither defined nor builtin. -/
def undefinedCalls (index : Index) : List Reference :=
  index.references.toList.filter fun r =>
    r.isCall && (index.definition? r.name).isNone && (signature? r.name).isNone

/-- Enters what a word means; (afterBlock) says that it stands right behind a block. -/
def addTerm (index : Index) (position : Position) (afterBlock : Bool) : Term → Index
  | .assign name =>
      if (index.definition? name).isSome then index
      else { index with definitions := index.definitions.push ⟨name, afterBlock, position⟩ }
  | .load name => { index with references := index.references.push ⟨name, false, position⟩ }
  | .number _ => index
  | .call name => { index with references := index.references.push ⟨name, true, position⟩ }

/-- Enters a token. -/
def addToken (index : Index) (position : Position) (afterBlock : Bool)
    : Token → Except Numeral.Fault Index
  | .openBlock => .ok { index with openBlocks := index.openBlocks + 1 }
  | .closeBlock =>
      if index.openBlocks = 0 then
        .ok { index with strayCloses := index.strayCloses.push position }
      else .ok { index with openBlocks := index.openBlocks - 1 }
  | .string _ => .ok index
  | .word text => (Term.ofWord text).map (index.addTerm position afterBlock)
  | .unterminated _ => .ok { index with openString := some position }

/-- Enters tokens in order, walking through the text beside them. -/
def addTokens (index : Index) (walk : Walk) (afterBlock : Bool)
    : List Lexeme → Except Numeral.Fault Index
  | [] => .ok index
  | lexeme :: rest =>
      let walk := walk.advance (lexeme.start - walk.offset)
      match index.addToken walk.position afterBlock lexeme.token with
      | .ok index => index.addTokens walk (lexeme.token = .closeBlock) rest
      | .error fault => .error fault

/-- What the compiler says of a whole text over an empty store, if it refuses it. A word that cannot
be read and an id that does not fit are no matter of the text's structure, and are passed on.
-/
def verdict (text : List Char) : Except ReadFault (Option String) :=
  match (Reader.fresh.compile .empty text true).result with
  | .ok _ => .ok none
  | .error (.incomplete what) => .ok (some what.message)
  | .error (.malformed what) => .ok (some what.message)
  | .error fault => .error fault

/-- The index of a text. -/
def ofText (text : List Char) : Except ReadFault Index :=
  match addTokens {} { ahead := text } false (Token.scan text) with
  | .ok index => (verdict text).map fun problem => { index with problem }
  | .error fault => .error (.numeral fault)

end Index

end StackText
