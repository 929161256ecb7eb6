import StackText.Editor.Index
import StackText.Text.Lines

/-! What an editor is told of the source texts that are open in it. -/

namespace StackText

/-- The part of a line between two columns. -/
structure Span where
  start : Position
  length : Nat
  deriving DecidableEq, Repr

/-- How grave a diagnostic is. -/
inductive Severity where
  | error
  | warning
  deriving DecidableEq, Repr

/-- The number of a severity in the editor's protocol. -/
def Severity.number : Severity → Nat
  | .error => 1
  | .warning => 2

/-- Something the editor shows at a place of a text. -/
structure Diagnostic where
  span : Span
  message : String
  severity : Severity
  deriving DecidableEq, Repr

/-- The name under which all diagnostics are shown. -/
def Diagnostic.source : String := "ck-ls"

/-- The diagnostics of a text: its stray brackets, its open blocks, its open string, and its calls
of names that nothing defines. What the compiler says is shown only if there is no bracket, block or
string to point at.
-/
def Index.diagnostics (index : Index) : List Diagnostic :=
  let error (position : Position) (message : String) : Diagnostic :=
    ⟨⟨position, 1⟩, message, .error⟩
  let stray := index.strayCloses.toList.map (error · "Unexpected ')'")
  let blocks :=
    if index.openBlocks = 0 then []
    else [error ⟨0, 0⟩ s!"{index.openBlocks} block(s) left open"]
  let string := index.openString.toList.map (error · "Unterminated string literal")
  let places := stray ++ blocks ++ string
  let verdict := if places.isEmpty then index.problem.toList.map (error ⟨0, 0⟩) else []
  let calls := index.undefinedCalls.map fun r =>
    let message := s!"'{r.name}' is not a builtin and is never set with $={r.name}"
    ⟨⟨r.position, r.name.length⟩, message, .warning⟩
  places ++ verdict ++ calls

/-- A text that is open, with its index. -/
structure Document where
  text : List Char
  index : Index

/-- The open texts by address, in the order in which they were opened. -/
structure Editor where
  documents : List (String × Document) := []

/-- The diagnostics of one address, as they are sent to the editor. -/
structure Publication where
  address : String
  diagnostics : List Diagnostic

namespace Editor

/-- The open text of an address. -/
def document? (editor : Editor) (address : String) : Option Document :=
  editor.documents.lookup address

/-- Puts a text at an address; an address that is open keeps its place. -/
def put (editor : Editor) (address : String) (document : Document) : Editor :=
  if (editor.document? address).isSome then
    ⟨editor.documents.map fun entry =>
      if entry.1 = address then (address, document) else entry⟩
  else ⟨editor.documents ++ [(address, document)]⟩

/-- Sets the text of an address. -/
def update (editor : Editor) (address : String) (text : List Char)
    : Except ReadFault (Editor × Publication) :=
  match Index.ofText text with
  | .ok index => .ok (editor.put address ⟨text, index⟩, ⟨address, index.diagnostics⟩)
  | .error fault => .error fault

/-- Takes the last of several new texts of an address; without one the text stays as it is. -/
def change (editor : Editor) (address : String) (texts : List (List Char))
    : Except ReadFault (Editor × Publication) :=
  let current := ((editor.document? address).map Document.text).getD []
  editor.update address (texts.getLast?.getD current)

/-- Closes an address and clears its diagnostics. -/
def close (editor : Editor) (address : String) : Editor × Publication :=
  (⟨editor.documents.filter (·.1 ≠ address)⟩, ⟨address, []⟩)

-----------------------------------------------------------------------------------------
-- Words under the cursor
-----------------------------------------------------------------------------------------

/-- The characters of a word at the end of a text. -/
def wordEnd (text : List Char) : List Char :=
  (text.reverse.takeWhile (!isSpecial ·)).reverse

/-- The word around a column of a line. -/
def wordAround (line : List Char) (column : Nat) : List Char :=
  wordEnd (line.take column) ++ (line.drop column).takeWhile (!isSpecial ·)

/-- The word at a position, if there is one. -/
def wordAt? (text : List Char) (position : Position) : Option (List Char) :=
  match (Text.screenLines text)[position.line]? with
  | none => none
  | some line =>
      match wordAround line position.column with
      | [] => none
      | word => some word

/-- The part of a word before a position. -/
def wordBefore (text : List Char) (position : Position) : List Char :=
  match (Text.screenLines text)[position.line]? with
  | none => []
  | some line => wordEnd (line.take position.column)

/-- The name in a word, without a sigil. -/
def wordName : List Char → List Char
  | '$' :: '=' :: name => name
  | '$' :: name => name
  | word => word

/-- What is known of the word at a position: the stack effect of a builtin that is called, or the
definition of a name.
-/
def hover (editor : Editor) (address : String) (position : Position) : Option String := do
  let document ← editor.document? address
  let word ← wordAt? document.text position
  let name := String.ofList (wordName word)
  let signature := if wordName word = word then Index.signature? name else none
  match signature, document.index.definition? name with
  | some signature, _ => return name ++ " " ++ signature
  | none, some d =>
      let line := d.position.line + 1
      let column := d.position.column + 1
      return s!"{name} — {d.kind} (defined at {line}:{column})"
  | none, none => none

-----------------------------------------------------------------------------------------
-- Completion and outline
-----------------------------------------------------------------------------------------

/-- A word that the editor offers. -/
structure Completion where
  label : String
  isFunction : Bool
  detail : Option String
  deriving DecidableEq, Repr

/-- The number of a completion's kind in the editor's protocol: a function or a variable. -/
def Completion.kind (c : Completion) : Nat := if c.isFunction then 3 else 6

/-- The words that can follow: after a sigil the names that are defined, else the builtins and the
functions that are defined.
-/
def completions (editor : Editor) (address : String) (position : Position) : List Completion :=
  match editor.document? address with
  | none => []
  | some document =>
      let definitions := document.index.definitions.toList
      let names (sigil : String) : List Completion :=
        definitions.map fun d => ⟨sigil ++ d.name, d.isFunction, none⟩
      match wordBefore document.text position with
      | '$' :: '=' :: _ => names "$="
      | '$' :: _ => names "$"
      | _ =>
          let builtins : List Completion :=
            Index.signatures.map fun (word, signature) => ⟨word, true, some signature⟩
          let functions := definitions.filter Definition.isFunction
          builtins ++ functions.map fun d => ⟨d.name, true, none⟩

/-- An entry of the outline of a text. -/
structure OutlineEntry where
  name : String
  isFunction : Bool
  span : Span
  deriving DecidableEq, Repr

/-- The number of an entry's kind in the editor's protocol: a function or a variable. -/
def OutlineEntry.kind (e : OutlineEntry) : Nat := if e.isFunction then 12 else 13

/-- The outline of a text: its definitions, each with the span of the word that assigns it. -/
def outline? (editor : Editor) (address : String) : Option (List OutlineEntry) :=
  (editor.document? address).map fun document =>
    document.index.definitions.toList.map fun d =>
      ⟨d.name, d.isFunction, ⟨d.position, d.name.length + 2⟩⟩

end Editor

end StackText
