import StackText.Proofs.Code.Encoding
import StackText.Proofs.Number.IntegerRange
import StackText.Proofs.Store.Growth
import StackText.Reader.Basic

/-! What compiling a token does to a draft, what can stop it, and compiling tokens in two parts.
-/

namespace StackText

/-- The value of a number that is written in the text, in the slot with the given id. -/
def Number.value (id : Nat) : Number → Value
  | .int n => .int n
  | .float x => .float x (.slot id)

/-- (v.IsLiteral id) holds of what the text can put into an unnamed slot: an integer of the
language, a double, a string, or the function of a block that was compiled into the slot.
-/
def Value.IsLiteral (id : Nat) : Value → Prop
  | .int n => Integer.InRange n
  | .float _ _ | .str _ => True
  | .func f => f.id = some id
  | _ => False

/-- A number that a word stands for is a literal. -/
theorem Term.isLiteral_of_ofWord {word : List Char} {n : Number}
    (meaning : Term.ofWord word = .ok (.number n)) (id : Nat)
    : (n.value id).IsLiteral id := by
  rw [ofWord.eq_def] at meaning
  split at meaning
  · cases meaning
  · cases meaning
  · split at meaning
    · cases meaning
    · next written =>
        cases meaning
        cases n with
        | int n => exact Numeral.inRange_of_read written
        | float x => trivial
    · cases meaning

/-- The opcode and the name of a word that stands for a variable. -/
def Term.reference? : Term → Option (Opcode × String)
  | .assign name => some (.assign, name)
  | .load name => some (.load, name)
  | .call name => some (.apply, name)
  | .number _ => none

/-- The opcode and the name of a token that stands for a variable. -/
def Token.mention? : Token → Option (Opcode × String)
  | .word letters => (Term.ofWord letters).toOption.bind Term.reference?
  | _ => none

/-- The mentions of names among tokens, in order. -/
def Token.mentions (tokens : List Token) : List (Opcode × String) := tokens.filterMap mention?

theorem Token.mentions_concat (tokens : List Token) (token : Token)
    : mentions (tokens ++ [token]) = mentions tokens ++ token.mention?.toList := by
  cases found : token.mention? <;> simp [mentions, found]

namespace Draft

/-- Compiles one token. -/
def token (draft : Draft) : Token → Draft × Option Stoppage
  | .openBlock => (draft.openBlock, none)
  | .closeBlock => draft.closeBlock
  | .string text => draft.literal fun _ => .str text
  | .word text => draft.word text
  | .unterminated rest => (draft, some (.unterminated rest))

/-- Compiles tokens up to the first that stops it. -/
def tokens (draft : Draft) : List Token → Draft × Option Stoppage
  | [] => (draft, none)
  | t :: rest =>
      match draft.token t with
      | (draft, none) => draft.tokens rest
      | stopped => stopped

-----------------------------------------------------------------------------------------
-- One token
-----------------------------------------------------------------------------------------

theorem emit_eq (draft : Draft) (i : Instruction)
    : draft.emit i
      = if i.id < idLimit then ({ draft with chunk := draft.chunk.push i }, none)
        else
          ({ draft with chunk := draft.chunk.pushByte i.op.byte },
            some (.code (.idOutOfRange i.id))) := by
  rw [emit]
  by_cases fits : i.id < idLimit
  · rw [Chunk.emit_of_fits fits, if_pos fits]
    rfl
  · rw [Chunk.emit_of_not_fits fits, if_neg fits]
    rfl

theorem literal_eq (draft : Draft) (value : Nat → Value)
    : draft.literal value
      = emit { draft with store := (draft.store.alloc (value draft.store.symbols.size)).2 }
          ⟨.load, draft.store.symbols.size⟩ :=
  rfl

theorem named_eq (draft : Draft) (op : Opcode) (name : String)
    : draft.named op name
      = emit { draft with store := (draft.store.intern name).2 }
          ⟨op, (draft.store.intern name).1⟩ :=
  rfl

@[simp] theorem store_emit (draft : Draft) (i : Instruction)
    : (draft.emit i).1.store = draft.store := by
  rw [emit_eq]
  split <;> rfl

theorem emit_stoppage {draft next : Draft} {i : Instruction} {stoppage : Stoppage}
    (stopped : draft.emit i = (next, some stoppage))
    : ∃ fault, stoppage = .code fault := by
  rw [emit_eq] at stopped
  split at stopped
  · cases stopped
  · cases stopped
    exact ⟨_, rfl⟩

theorem term_stoppage {draft next : Draft} {meaning : Term} {stoppage : Stoppage}
    (stopped : draft.term meaning = (next, some stoppage))
    : ∃ fault, stoppage = .code fault := by
  cases meaning with
  | assign name | load name | call name =>
      rw [term, named_eq] at stopped
      exact emit_stoppage stopped
  | number n =>
      cases n with
      | int n | float x =>
          rw [term, literal_eq] at stopped
          exact emit_stoppage stopped

/-- Why a token stops compiling: a closing bracket outside all blocks, an unterminated string, a
numeral that cannot be read, or an id that does not fit.
-/
theorem token_stoppage {draft next : Draft} {token : Token} {stoppage : Stoppage}
    (stopped : draft.token token = (next, some stoppage))
    : token = .closeBlock ∧ draft.outer = [] ∧ stoppage = .strayClose
      ∨ (∃ rest, token = .unterminated rest ∧ stoppage = .unterminated rest)
      ∨ (∃ word fault,
          token = .word word ∧ Term.ofWord word = .error fault ∧ stoppage = .numeral fault)
      ∨ ∃ fault, stoppage = .code fault := by
  cases token with
  | openBlock => cases stopped
  | closeBlock =>
      obtain ⟨store, outer, block⟩ := draft
      cases outer with
      | nil => cases stopped; exact .inl ⟨rfl, rfl, rfl⟩
      | cons chunk outer =>
          rw [token, closeBlock, literal_eq] at stopped
          exact .inr (.inr (.inr (emit_stoppage stopped)))
  | string text =>
      rw [token, literal_eq] at stopped
      exact .inr (.inr (.inr (emit_stoppage stopped)))
  | word text =>
      simp only [token, word] at stopped
      split at stopped
      · exact .inr (.inr (.inr (term_stoppage stopped)))
      · next fault unread => cases stopped; exact .inr (.inr (.inl ⟨_, _, rfl, unread, rfl⟩))
  | unterminated rest => cases stopped; exact .inr (.inl ⟨_, rfl, rfl⟩)

/-- A literal whose id does not fit has taken a slot beyond all ids that fit. -/
theorem literal_eq_some {draft next : Draft} {value : Nat → Value} {stoppage : Stoppage}
    (stopped : draft.literal value = (next, some stoppage))
    : idLimit < next.store.size := by
  rw [literal_eq, emit_eq] at stopped
  split at stopped
  · cases stopped
  · next fits =>
      cases stopped
      have covered := draft.store.covered
      simp only [Store.alloc_eq, Store.size, Array.size_push] at *
      omega

/-- A name whose id does not fit has a slot beyond all ids that fit. -/
theorem named_eq_some {draft next : Draft} (formed : draft.store.WellFormed) {op : Opcode}
    {name : String} {stoppage : Stoppage}
    (stopped : draft.named op name = (next, some stoppage))
    : idLimit < next.store.size := by
  rw [named_eq, emit_eq] at stopped
  split at stopped
  · cases stopped
  · next fits =>
      cases stopped
      have bound := (Array.getElem?_eq_some_iff.mp (formed.names_intern name)).1
      have covered := (draft.store.intern name).2.covered
      simp only [SymbolTable.size, Store.size] at *
      omega

/-- An id that does not fit is the id of a slot beyond all ids that fit. -/
theorem size_of_token_code {draft next : Draft} (formed : draft.store.WellFormed) {token : Token}
    {fault : CodeFault} (stopped : draft.token token = (next, some (.code fault)))
    : idLimit < next.store.size := by
  cases token with
  | openBlock | unterminated rest => cases stopped
  | closeBlock =>
      obtain ⟨store, outer, block⟩ := draft
      cases outer with
      | nil => cases stopped
      | cons chunk outer =>
          rw [Draft.token, Draft.closeBlock] at stopped
          exact @literal_eq_some ⟨store, outer, chunk⟩ _ _ _ stopped
  | string text =>
      rw [Draft.token] at stopped
      exact literal_eq_some stopped
  | word text =>
      rw [Draft.token, Draft.word] at stopped
      split at stopped
      · next term meaning =>
          cases term with
          | assign name | load name | call name => exact named_eq_some formed stopped
          | number n =>
              cases n with
              | int n | float x =>
                  rw [Draft.term] at stopped
                  exact literal_eq_some stopped
      · cases stopped

/-- The draft with a value in a new slot and an instruction that loads it. -/
def withLiteral (draft : Draft) (v : Value) : Draft :=
  {
    draft with
    store := (draft.store.alloc v).2
    chunk := draft.chunk.push ⟨.load, draft.store.symbols.size⟩
  }

/-- The draft with an instruction on the slot of a name. -/
def withName (draft : Draft) (op : Opcode) (name : String) : Draft :=
  {
    draft with
    store := (draft.store.intern name).2
    chunk := draft.chunk.push ⟨op, (draft.store.intern name).1⟩
  }

/-- A literal compiles if its id fits. -/
theorem literal_of_lt {draft : Draft} (fits : draft.store.symbols.size < idLimit)
    (value : Nat → Value)
    : draft.literal value = (draft.withLiteral (value draft.store.symbols.size), none) := by
  rw [literal_eq, emit_eq, if_pos fits]
  rfl

/-- The function that a closed block becomes in the slot with the given id. -/
def blockValue (block : Chunk) (id : Nat) : Value := .func ⟨block, some id, .slot id⟩

/-- All that a token can do to the store, whether or not it stops compiling: nothing, a new slot for
a literal, or the slot of the name that it mentions.
-/
theorem store_token (draft : Draft) (token : Token)
    : (draft.token token).1.store = draft.store
      ∨ (∃ v,
          v.IsLiteral draft.store.symbols.size
          ∧ (draft.token token).1.store = (draft.store.alloc v).2)
      ∨ ∃ op name,
          token.mention? = some (op, name)
          ∧ (draft.token token).1.store = (draft.store.intern name).2 := by
  cases token with
  | openBlock | unterminated rest => exact .inl rfl
  | closeBlock =>
      obtain ⟨store, outer, block⟩ := draft
      cases outer with
      | nil => exact .inl rfl
      | cons chunk outer =>
          refine .inr (.inl ⟨blockValue block store.symbols.size, rfl, ?_⟩)
          rw [Draft.token, closeBlock, literal_eq, store_emit]
          rfl
  | string text =>
      refine .inr (.inl ⟨.str text, trivial, ?_⟩)
      rw [Draft.token, literal_eq, store_emit]
  | word letters =>
      rw [Draft.token, Draft.word]
      split
      · next meaning means =>
          have known : Token.mention? (.word letters) = meaning.reference? := by
            simp [Token.mention?, means, Except.toOption]
          cases meaning with
          | assign name | load name | call name =>
              refine .inr (.inr ⟨_, name, known, ?_⟩)
              rw [Draft.term, named_eq, store_emit]
          | number n =>
              refine .inr (.inl ⟨_, Term.isLiteral_of_ofWord means _, ?_⟩)
              cases n with
              | int n | float x => rw [Draft.term, literal_eq, store_emit]; rfl
      · exact .inl rfl

/-- A token leaves all slots as they are. -/
theorem grows_token (draft : Draft) (token : Token)
    : draft.store.Grows (draft.token token).1.store := by
  rcases draft.store_token token with same | ⟨v, _, same⟩ | ⟨op, name, _, same⟩
  · rw [same]; exact .refl _
  · rw [same]; exact Store.grows_alloc _ v
  · rw [same]; exact Store.grows_intern _ name

/-- All that compiling a token can do without being stopped. -/
inductive Compiles : Draft → Token → Draft → Prop
  | openBlock (draft)
    : Compiles draft .openBlock { draft with outer := draft.chunk :: draft.outer, chunk := {} }
  | closeBlock {store chunk outer block} (fits : store.symbols.size < idLimit)
    : Compiles ⟨store, chunk :: outer, block⟩ .closeBlock
        (withLiteral ⟨store, outer, chunk⟩ (blockValue block store.symbols.size))
  | string {draft} (text) (fits : draft.store.symbols.size < idLimit)
    : Compiles draft (.string text) (draft.withLiteral (.str text))
  | number {draft word n} (meaning : Term.ofWord word = .ok (.number n))
    (fits : draft.store.symbols.size < idLimit)
    : Compiles draft (.word word) (draft.withLiteral (n.value draft.store.symbols.size))
  | name {draft word term op name} (meaning : Term.ofWord word = .ok term)
    (refers : term.reference? = some (op, name)) (fits : (draft.store.intern name).1 < idLimit)
    : Compiles draft (.word word) (draft.withName op name)

theorem literal_eq_none {draft next : Draft} {value : Nat → Value}
    (passed : draft.literal value = (next, none))
    : draft.store.symbols.size < idLimit
      ∧ next = draft.withLiteral (value draft.store.symbols.size) := by
  rw [literal_eq, emit_eq] at passed
  split at passed
  · next fits => cases passed; exact ⟨fits, rfl⟩
  · cases passed

theorem named_eq_none {draft next : Draft} {op : Opcode} {name : String}
    (passed : draft.named op name = (next, none))
    : (draft.store.intern name).1 < idLimit ∧ next = draft.withName op name := by
  rw [named_eq, emit_eq] at passed
  split at passed
  · next fits => cases passed; exact ⟨fits, rfl⟩
  · cases passed

/-- A token that does not stop compiling did one of the things that tokens do. -/
theorem compiles_of_token {draft next : Draft} {token : Token}
    (passed : draft.token token = (next, none))
    : Compiles draft token next := by
  cases token with
  | openBlock => cases passed; exact .openBlock draft
  | closeBlock =>
      obtain ⟨store, outer, block⟩ := draft
      cases outer with
      | nil => cases passed
      | cons chunk outer =>
          rw [Draft.token, Draft.closeBlock] at passed
          obtain ⟨fits, rfl⟩ := literal_eq_none passed
          exact .closeBlock fits
  | string text =>
      rw [Draft.token] at passed
      obtain ⟨fits, rfl⟩ := literal_eq_none passed
      exact .string text fits
  | word text =>
      rw [Draft.token, Draft.word] at passed
      split at passed
      · next term meaning =>
          cases term with
          | assign name | load name | call name =>
              obtain ⟨fits, rfl⟩ := named_eq_none passed
              exact .name meaning rfl fits
          | number n =>
              cases n with
              | int n | float x =>
                  rw [Draft.term] at passed
                  obtain ⟨fits, rfl⟩ := literal_eq_none passed
                  exact .number meaning fits
      · cases passed
  | unterminated rest => cases passed

/-- All that is listed does not stop compiling. -/
theorem Compiles.token_eq {draft next : Draft} {token : Token}
    (compiles : Compiles draft token next)
    : draft.token token = (next, none) := by
  cases compiles with
  | openBlock => rfl
  | closeBlock fits => rw [Draft.token, Draft.closeBlock, literal_of_lt fits]; rfl
  | string text fits => rw [Draft.token, literal_of_lt fits]
  | @number _ word n meaning fits =>
      rw [Draft.token, Draft.word, meaning]
      cases n with
      | int n | float x =>
          simp only [Draft.term]
          rw [literal_of_lt fits]
          rfl
  | @name _ word term op name meaning refers fits =>
      rw [Draft.token, Draft.word, meaning]
      cases term with
      | number n => cases refers
      | assign _ | load _ | call _ =>
          cases refers
          simp only [Draft.term]
          rw [named_eq, emit_eq, if_pos fits]
          rfl

theorem Compiles.grows {draft next : Draft} {token : Token} (compiles : Compiles draft token next)
    : draft.store.Grows next.store := by
  cases compiles with
  | openBlock => exact .refl _
  | closeBlock fits => exact Store.grows_alloc _ _
  | string text fits => exact Store.grows_alloc _ _
  | number meaning fits => exact Store.grows_alloc _ _
  | name meaning refers fits => exact Store.grows_intern _ _

theorem Compiles.wellFormed {draft next : Draft} {token : Token}
    (compiles : Compiles draft token next) (formed : draft.store.WellFormed)
    : next.store.WellFormed := by
  cases compiles with
  | openBlock => exact formed
  | closeBlock fits => exact formed.alloc _
  | string text fits => exact formed.alloc _
  | number meaning fits => exact formed.alloc _
  | name meaning refers fits => exact formed.intern _

-----------------------------------------------------------------------------------------
-- Many tokens
-----------------------------------------------------------------------------------------

theorem tokens_cons_of_none {draft next : Draft} (token : Token)
    (passed : draft.token token = (next, none)) (rest : List Token)
    : draft.tokens (token :: rest) = next.tokens rest := by
  rw [tokens, passed]

theorem tokens_cons_of_stopped {draft : Draft} (token : Token)
    (stopped : ∀ next, draft.token token ≠ (next, none)) (rest : List Token)
    : draft.tokens (token :: rest) = draft.token token := by
  rw [tokens]
  split
  · next passed => exact absurd passed (stopped _)
  · rfl

/-- Tokens behind others are compiled into what the first have left. -/
theorem tokens_append_of_none {draft next : Draft} {front : List Token}
    (read : draft.tokens front = (next, none)) (back : List Token)
    : draft.tokens (front ++ back) = next.tokens back := by
  induction front generalizing draft with
  | nil => cases read; rfl
  | cons t front ih =>
      rw [tokens] at read
      rw [List.cons_append, tokens]
      split at read
      · exact ih read
      · next stopped => exact absurd read (fun same => stopped _ same)

/-- Tokens behind one that stops compiling are not reached. -/
theorem tokens_append_of_some {draft next : Draft} {front : List Token} {stoppage : Stoppage}
    (read : draft.tokens front = (next, some stoppage)) (back : List Token)
    : draft.tokens (front ++ back) = (next, some stoppage) := by
  induction front generalizing draft with
  | nil => cases read
  | cons t front ih =>
      rw [tokens] at read
      rw [List.cons_append, tokens]
      split at read
      · exact ih read
      · exact read

/-- The token that stops compiling, and the draft it is met in, by induction on the tokens. -/
theorem tokens_stoppage {draft next : Draft} {tokens : List Token} {stoppage : Stoppage}
    (stopped : draft.tokens tokens = (next, some stoppage))
    : ∃ front token back before,
        tokens = front ++ token :: back
        ∧ draft.tokens front = (before, none)
        ∧ before.token token = (next, some stoppage) := by
  induction tokens generalizing draft with
  | nil => cases stopped
  | cons t tokens ih =>
      rw [Draft.tokens] at stopped
      split at stopped
      · next after passed =>
          obtain ⟨front, token, back, before, rfl, reached, here⟩ := ih stopped
          refine ⟨t :: front, token, back, before, rfl, ?_, here⟩
          rw [Draft.tokens, passed]
          exact reached
      · exact ⟨[], t, tokens, draft, rfl, rfl, stopped⟩

/-- An unterminated string that stops compiling is one of the tokens. -/
theorem mem_of_unterminated {draft next : Draft} {tokens : List Token} {rest : List Char}
    (stopped : draft.tokens tokens = (next, some (.unterminated rest)))
    : .unterminated rest ∈ tokens := by
  obtain ⟨front, token, back, before, rfl, _, here⟩ := tokens_stoppage stopped
  rcases token_stoppage here with ⟨_, _, same⟩ | ⟨_, rfl, same⟩ | ⟨_, _, _, _, same⟩ | ⟨_, same⟩
  · cases same
  · cases same; simp
  · cases same
  · cases same

/-- Only an unterminated string among the tokens stops compiling as one. -/
theorem tokens_ne_unterminated {draft next : Draft} {tokens : List Token} {rest : List Char}
    (terminated : ∀ rest, .unterminated rest ∉ tokens)
    : draft.tokens tokens ≠ (next, some (.unterminated rest)) :=
  fun stopped => terminated rest (mem_of_unterminated stopped)

/-- (Commutes store change) holds if a change of drafts over what a store has become may come before
or after all that tokens do.
-/
structure Commutes (store : Store) (change : Draft → Draft) : Prop where
  literal : ∀ draft value,
    store.Grows draft.store
    → (change draft).literal value = (change (draft.literal value).1, (draft.literal value).2)
  named : ∀ draft op name,
    store.Grows draft.store
    → (change draft).named op name = (change (draft.named op name).1, (draft.named op name).2)
  openBlock : ∀ draft,
    (change draft).token .openBlock
      = (change (draft.token .openBlock).1, (draft.token .openBlock).2)
  closeBlock : ∀ draft,
    store.Grows draft.store
    → (change draft).closeBlock = (change draft.closeBlock.1, draft.closeBlock.2)

theorem Commutes.token {store : Store} {change : Draft → Draft} (commutes : Commutes store change)
    {draft : Draft} (grown : store.Grows draft.store) (token : Token)
    : (change draft).token token = (change (draft.token token).1, (draft.token token).2) := by
  cases token with
  | openBlock => exact commutes.openBlock draft
  | closeBlock => exact commutes.closeBlock draft grown
  | string text => exact commutes.literal draft (fun _ => .str text) grown
  | word text =>
      simp only [Draft.token, Draft.word]
      split
      · next meaning _ =>
          cases meaning with
          | assign name | load name | call name => exact commutes.named draft _ _ grown
          | number n =>
              cases n with
              | int n => exact commutes.literal draft (fun _ => .int n) grown
              | float x => exact commutes.literal draft (fun id => .float x (.slot id)) grown
      · rfl
  | unterminated rest => rfl

/-- Such a change commutes with many tokens, by induction on them. -/
theorem Commutes.tokens {store : Store} {change : Draft → Draft} (commutes : Commutes store change)
    {draft : Draft} (grown : store.Grows draft.store) (tokens : List Token)
    : (change draft).tokens tokens
      = (change (draft.tokens tokens).1, (draft.tokens tokens).2) := by
  induction tokens generalizing draft with
  | nil => rfl
  | cons t tokens ih =>
      have later := grown.trans (draft.grows_token t)
      rw [Draft.tokens, commutes.token grown, Draft.tokens]
      generalize draft.token t = read at later ⊢
      obtain ⟨next, stoppage⟩ := read
      cases stoppage with
      | none => exact ih later
      | some stoppage => rfl

/-- Tokens that compile one after another. -/
inductive CompilesAll : Draft → List Token → Draft → Prop
  | nil (draft)
    : CompilesAll draft [] draft
  | cons {draft token middle tokens next} (first : Compiles draft token middle)
    (later : CompilesAll middle tokens next)
    : CompilesAll draft (token :: tokens) next

/-- Tokens that are not stopped compile one after another, by induction on the tokens. -/
theorem compilesAll_of_tokens {draft next : Draft} {tokens : List Token}
    (passed : draft.tokens tokens = (next, none))
    : CompilesAll draft tokens next := by
  induction tokens generalizing draft with
  | nil => cases passed; exact .nil _
  | cons t tokens ih =>
      rw [Draft.tokens] at passed
      split at passed
      · next middle first => exact .cons (compiles_of_token first) (ih passed)
      · next stopped => exact absurd passed (fun same => stopped _ same)

theorem CompilesAll.tokens_eq {draft next : Draft} {tokens : List Token}
    (compiles : CompilesAll draft tokens next)
    : draft.tokens tokens = (next, none) := by
  induction compiles with
  | nil => rfl
  | cons first _ ih => rw [Draft.tokens, first.token_eq]; exact ih

theorem CompilesAll.wellFormed {draft next : Draft} {tokens : List Token}
    (compiles : CompilesAll draft tokens next) (formed : draft.store.WellFormed)
    : next.store.WellFormed := by
  induction compiles with
  | nil => exact formed
  | cons first _ ih => exact ih (first.wellFormed formed)

end Draft

end StackText
