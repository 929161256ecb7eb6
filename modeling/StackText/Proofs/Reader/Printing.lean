import Mathlib
import StackText.Proofs.Number.IntegerText
import StackText.Proofs.Reader.CleanEnd
import StackText.Proofs.Reader.FencedText

/-! Printing a program, and reading it back. The nodes of a program are written with single blanks
between them, and what is compiled from the text stands for the same nodes. Only a call whose name
has the shape of a number, and cannot be read as one, is lost.
-/

namespace StackText

namespace Node

/-- (node.Printable) holds if the node can be written: it is an integer of the language, a string
that is not empty, a block of such nodes, or a variable whose name does not end early or mean
something else where it is written.
-/
inductive Printable : Node → Prop
  | int {n} (range : Integer.InRange n)
    : Printable (.number (.int n))
  | string {text} (nonempty : text ≠ "")
    : Printable (.string text)
  | load {name} (plain : ∀ c ∈ name.toList, isSpecial c = false)
    (notAssigned : name.toList.head? ≠ some '=')
    : Printable (.load name)
  | assign {name} (plain : ∀ c ∈ name.toList, isSpecial c = false)
    : Printable (.assign name)
  | call {name} (nonempty : name ≠ "") (plain : ∀ c ∈ name.toList, isSpecial c = false)
    (noSigil : name.toList.head? ≠ some '$')
    (notNumber : ∀ n, Numeral.read name.toList ≠ .ok (some n))
    : Printable (.call name)
  | block {body} (each : ∀ node ∈ body, Printable node)
    : Printable (.block body)

/-- (node.Written text) holds if the text writes a node that is no block. A string stands between
single quotes of a kind that it neither starts nor ends with, and those inside are doubled.
-/
inductive Written : Node → List Char → Prop
  | int (n)
    : Written (.number (.int n)) (Text.decimalInt n).toList
  | string {text quote} (isQuote : isQuote quote = true) (first : text.toList.head? ≠ some quote)
    (last : text.toList.getLast? ≠ some quote)
    : Written (.string text) (quote :: Fenced.doubled quote text.toList ++ [quote])
  | load (name)
    : Written (.load name) ('$' :: name.toList)
  | assign (name)
    : Written (.assign name) ('$' :: '=' :: name.toList)
  | call (name)
    : Written (.call name) name.toList

/-- (node.CallsUnreadable) holds if the node is or holds a call of an unreadable word. -/
inductive CallsUnreadable : Node → Prop
  | call {name} (unreadable : Numeral.Unreadable name.toList)
    : CallsUnreadable (.call name)
  | block {body node} (member : node ∈ body) (inside : CallsUnreadable node)
    : CallsUnreadable (.block body)

/-- A blank before the text of some nodes, unless there are none. -/
def spaced : List Node → List Char → List Char
  | [], _ => []
  | _ :: _, text => ' ' :: text

/-- (Prints nodes text) holds if the text writes the nodes in order, with single blanks between them
and brackets around blocks.
-/
inductive Prints : List Node → List Char → Prop
  | nil
    : Prints [] []
  | leaf {node written nodes text} (here : Written node written) (later : Prints nodes text)
    : Prints (node :: nodes) (written ++ spaced nodes text)
  | block {body inside nodes text} (group : Prints body inside) (later : Prints nodes text)
    : Prints (.block body :: nodes) ('(' :: (inside ++ ')' :: spaced nodes text))

-----------------------------------------------------------------------------------------
-- Every printable program has a text
-----------------------------------------------------------------------------------------

/-- Of three quotes one is neither of two characters. -/
theorem exists_quote (first last : Option Char)
    : ∃ quote, isQuote quote = true ∧ first ≠ some quote ∧ last ≠ some quote := by
  by_cases single : first ≠ some '\x27' ∧ last ≠ some '\x27'
  · exact ⟨'\x27', by decide, single⟩
  by_cases double : first ≠ some '\x22' ∧ last ≠ some '\x22'
  · exact ⟨'\x22', by decide, double⟩
  · refine ⟨'\x60', by decide, ?_⟩
    rw [not_and_or, not_not, not_not] at single double
    rcases single with rfl | rfl <;> rcases double with same | same <;> simp_all

/-- A printable node can be written before any text of other nodes, by induction on the node. -/
theorem Printable.exists_prints {node : Node} (printable : node.Printable) {nodes : List Node}
    {text : List Char} (later : Prints nodes text)
    : ∃ whole, Prints (node :: nodes) whole := by
  induction printable generalizing nodes text with
  | @int n range => exact ⟨_, .leaf (.int n) later⟩
  | @string string nonempty =>
      obtain ⟨quote, isQuote, first, last⟩ :=
        exists_quote string.toList.head? string.toList.getLast?
      exact ⟨_, .leaf (.string isQuote first last) later⟩
  | @load name plain notAssigned => exact ⟨_, .leaf (.load name) later⟩
  | @assign name plain => exact ⟨_, .leaf (.assign name) later⟩
  | @call name nonempty plain noSigil notNumber => exact ⟨_, .leaf (.call name) later⟩
  | @block body each ih =>
      have inside : ∃ inside, Prints body inside := by
        clear each
        induction body with
        | nil => exact ⟨[], .nil⟩
        | cons first body bodyIH =>
            obtain ⟨here, others⟩ := List.forall_mem_cons.mp ih
            obtain ⟨behind, prints⟩ := bodyIH others
            exact here prints
      obtain ⟨inside, group⟩ := inside
      exact ⟨_, .block group later⟩

theorem exists_prints {nodes : List Node} (printable : ∀ node ∈ nodes, node.Printable)
    : ∃ text, Prints nodes text := by
  induction nodes with
  | nil => exact ⟨[], .nil⟩
  | cons node nodes ih =>
      obtain ⟨here, others⟩ := List.forall_mem_cons.mp printable
      obtain ⟨text, prints⟩ := ih others
      exact here.exists_prints prints

-----------------------------------------------------------------------------------------
-- The tokens of the text
-----------------------------------------------------------------------------------------

open Token

/-- (Boundary rest) holds if what follows a node is nothing, a blank or a closing bracket. -/
def Boundary (rest : List Char) : Prop := ∀ c ∈ rest.head?, c = ' ' ∨ c = ')'

theorem Boundary.isSpecial {rest : List Char} (boundary : Boundary rest)
    : ∀ c ∈ rest.head?, isSpecial c = true := by
  intro c head
  rcases boundary c head with rfl | rfl <;> decide

theorem Boundary.endsFence {rest : List Char} (boundary : Boundary rest) {quote : Char}
    (isQuote : isQuote quote = true)
    : Fenced.EndsFence quote rest := by
  cases rest with
  | nil => exact ⟨rfl, by simp⟩
  | cons c rest =>
      refine ⟨by simp [Fenced.closesBefore, boundary.isSpecial c rfl], ?_⟩
      intro d head same
      cases head
      subst same
      rcases boundary c rfl with rfl | rfl <;> revert isQuote <;> decide

theorem boundary_spaced {rest : List Char} (boundary : Boundary rest) (nodes : List Node)
    (text : List Char)
    : Boundary (spaced nodes text ++ rest) := by
  cases nodes with
  | nil => exact boundary
  | cons node nodes =>
      intro c head
      cases head
      exact .inl rfl

/-- The blank between nodes changes no tokens, and without further nodes there is no text. -/
theorem Prints.sequence_spaced {nodes : List Node} {text : List Char} (prints : Prints nodes text)
    (rest : List Char)
    : sequence (spaced nodes text ++ rest) = sequence (text ++ rest) := by
  cases prints with
  | nil => rfl
  | leaf here later => exact sequence_blank (by decide) _
  | block group later => exact sequence_blank (by decide) _

/-- (Transcribes tokens nodes) holds if the tokens spell the nodes, or stumble because an unreadable
word is called in the nodes.
-/
structure Transcribes (tokens : List Token) (nodes : List Node) : Prop where
  spells : (∀ node ∈ nodes, ¬node.CallsUnreadable) → Spells tokens nodes
  stumbles : (∃ node ∈ nodes, node.CallsUnreadable) → Stumbles 0 tokens

theorem transcribes_of_spells {tokens : List Token} {nodes : List Node}
    (spells : Spells tokens nodes) (readable : ∀ node ∈ nodes, ¬node.CallsUnreadable)
    : Transcribes tokens nodes := by
  refine ⟨fun _ => spells, ?_⟩
  intro called
  obtain ⟨node, member, unreadable⟩ := called
  exact absurd unreadable (readable node member)

theorem Transcribes.append {front back : List Token} {nodes more : List Node}
    (first : Transcribes front nodes) (later : Transcribes back more)
    : Transcribes (front ++ back) (nodes ++ more) := by
  constructor
  · intro readable
    obtain ⟨here, behind⟩ := List.forall_mem_append.mp readable
    exact (first.spells here).append (later.spells behind)
  · intro called
    obtain ⟨node, member, unreadable⟩ := called
    by_cases early : ∃ node ∈ nodes, node.CallsUnreadable
    · exact (first.stumbles early).append back
    · have readable : ∀ node ∈ nodes, ¬node.CallsUnreadable :=
        fun node here odd => early ⟨node, here, odd⟩
      rcases List.mem_append.mp member with here | behind
      · exact absurd unreadable (readable node here)
      · exact (later.stumbles ⟨node, behind, unreadable⟩).behind (first.spells readable).balanced

theorem Transcribes.block {inside : List Token} {body : List Node}
    (group : Transcribes inside body)
    : Transcribes (.openBlock :: (inside ++ [.closeBlock])) [.block body] := by
  constructor
  · intro readable
    refine .block (group.spells ?_) .nil
    intro node member odd
    exact readable (.block body) (List.mem_singleton_self _) (.block member odd)
  · intro called
    obtain ⟨node, member, unreadable⟩ := called
    rw [List.mem_singleton.mp member] at unreadable
    cases unreadable with
    | block member odd => exact ((group.stumbles ⟨_, member, odd⟩).append _).inside

theorem transcribes_string (text : String)
    : Transcribes [.string text] [.string text] := by
  refine transcribes_of_spells (.string text .nil) ?_
  intro node member odd
  rw [List.mem_singleton.mp member] at odd
  cases odd

/-- A word with a meaning transcribes its node: only the name of a call can be unreadable. -/
theorem transcribes_word {word : List Char} {term : Term} (meaning : Term.ofWord word = .ok term)
    (readable : ¬term.node.CallsUnreadable)
    : Transcribes [.word word] [term.node] := by
  refine transcribes_of_spells (.word meaning .nil) ?_
  intro node member
  rw [List.mem_singleton.mp member]
  exact readable

/-- The name of a call transcribes it, also where the name is unreadable. -/
theorem transcribes_call {name : String} (noSigil : name.toList.head? ≠ some '$')
    (notNumber : ∀ n, Numeral.read name.toList ≠ .ok (some n))
    : Transcribes [.word name.toList] [.call name] := by
  by_cases unreadable : Numeral.Unreadable name.toList
  · refine ⟨fun readable => ?_, fun _ => ⟨[], name.toList, [], rfl, unreadable, ?_⟩⟩
    · exact absurd (CallsUnreadable.call unreadable) (readable _ (List.mem_singleton_self _))
    · intro part isPart
      rw [List.prefix_nil.mp isPart]
      simp
  · have none : Numeral.read name.toList = .ok none := by
      cases read : Numeral.read name.toList with
      | error fault => exact absurd (Numeral.read_eq_error_iff.mp ⟨fault, read⟩) unreadable
      | ok n =>
          cases n with
          | none => rfl
          | some n => exact absurd read (notNumber n)
    have meaning : Term.ofWord name.toList = .ok (.call name) := by
      rw [Term.ofWord_of_head noSigil, none]
      simp
    refine transcribes_word meaning ?_
    intro odd
    cases odd with
    | call odd => exact unreadable odd

/-- A printable node that is no block is written as one token, by cases on the node. -/
theorem Written.token {node : Node} {written : List Char} (writes : Written node written)
    (printable : node.Printable)
    : ∃ token,
        Transcribes [token] [node]
        ∧ ∀ rest, Boundary rest → sequence (written ++ rest) = token :: sequence rest := by
  cases writes with
  | int n =>
      cases printable with
      | int range =>
          refine ⟨_, transcribes_word (Term.ofWord_decimalInt range) (by intro odd; cases odd), ?_⟩
          intro rest boundary
          exact sequence_word (Text.decimalInt_ne_nil n) (Text.isSpecial_decimalInt n)
            boundary.isSpecial
  | @string text quote isQuote first last =>
      cases printable with
      | string nonempty =>
          refine ⟨.string text, transcribes_string text, ?_⟩
          intro rest boundary
          have content : text.toList ≠ [] := by simpa using nonempty
          obtain ⟨f, found, same, left⟩ :=
            Fenced.exists_read?_doubled (boundary.endsFence isQuote) content first last
          rw [List.cons_append] at found
          have whole : quote :: Fenced.doubled quote text.toList ++ [quote] ++ rest
              = quote :: (Fenced.doubled quote text.toList ++ quote :: rest) := by
            simp
          rw [whole, sequence_string isQuote found, same, left, String.ofList_toList]
  | load name =>
      cases printable with
      | load plain notAssigned =>
          have meaning : Term.ofWord ('$' :: name.toList) = .ok (.load name) := by
            rw [Term.ofWord.eq_def]
            split
            · next rest same =>
                rw [(List.cons.inj same).2] at notAssigned
                exact absurd rfl notAssigned
            · next same => rw [← (List.cons.inj same).2, String.ofList_toList]
            · next other => exact absurd rfl (other _)
          refine ⟨_, transcribes_word meaning (by intro odd; cases odd), ?_⟩
          intro rest boundary
          have all : ∀ c ∈ '$' :: name.toList, isSpecial c = false :=
            List.forall_mem_cons.mpr ⟨by decide, plain⟩
          exact sequence_word (by simp) all boundary.isSpecial
  | assign name =>
      cases printable with
      | assign plain =>
          have meaning : Term.ofWord ('$' :: '=' :: name.toList) = .ok (.assign name) := by
            rw [Term.ofWord, String.ofList_toList]
          refine ⟨_, transcribes_word meaning (by intro odd; cases odd), ?_⟩
          intro rest boundary
          have all : ∀ c ∈ '$' :: '=' :: name.toList, isSpecial c = false :=
            List.forall_mem_cons.mpr ⟨by decide, List.forall_mem_cons.mpr ⟨by decide, plain⟩⟩
          exact sequence_word (by simp) all boundary.isSpecial
  | call name =>
      cases printable with
      | call nonempty plain noSigil notNumber =>
          refine ⟨_, transcribes_call noSigil notNumber, ?_⟩
          intro rest boundary
          exact sequence_word (by simpa using nonempty) plain boundary.isSpecial

/-- The tokens of a printed text transcribe its nodes, whatever boundary follows, by induction on
the printing.
-/
theorem Prints.tokens {nodes : List Node} {text : List Char} (prints : Prints nodes text)
    (printable : ∀ node ∈ nodes, node.Printable)
    : ∃ tokens,
        Transcribes tokens nodes
        ∧ ∀ rest, Boundary rest → sequence (text ++ rest) = tokens ++ sequence rest := by
  induction prints with
  | nil => exact ⟨[], transcribes_of_spells .nil (by simp), fun _ _ => rfl⟩
  | @leaf node written nodes text here later ih =>
      obtain ⟨first, others⟩ := List.forall_mem_cons.mp printable
      obtain ⟨token, transcribed, reads⟩ := here.token first
      obtain ⟨tokens, behind, readsLater⟩ := ih others
      refine ⟨[token] ++ tokens, transcribed.append behind, ?_⟩
      intro rest boundary
      rw [List.append_assoc, reads _ (boundary_spaced boundary nodes text),
        later.sequence_spaced, readsLater rest boundary]
      rfl
  | @block body inside nodes text group later groupIH laterIH =>
      obtain ⟨first, others⟩ := List.forall_mem_cons.mp printable
      have each : ∀ node ∈ body, node.Printable := by
        cases first with
        | block each => exact each
      obtain ⟨tokens, transcribed, readsInside⟩ := groupIH each
      obtain ⟨more, behind, readsLater⟩ := laterIH others
      refine ⟨_, transcribed.block.append behind, ?_⟩
      intro rest boundary
      have bracket : Boundary (')' :: (spaced nodes text ++ rest)) := by
        intro c head
        cases head
        exact .inr rfl
      rw [List.cons_append, List.append_assoc, List.cons_append, sequence_openBlock,
        readsInside _ bracket, sequence_closeBlock, later.sequence_spaced,
        readsLater rest boundary]
      simp

end Node

-----------------------------------------------------------------------------------------
-- What the tokens compile to
-----------------------------------------------------------------------------------------

namespace Reader

open Token

/-- A text whose tokens spell nodes compiles to code for those nodes, given room for the ids. -/
theorem compile_of_spells {store : Store} (formed : store.WellFormed) {text : List Char}
    {nodes : List Node} (spells : Spells (sequence text) nodes)
    (room : (fresh.compile store text true).store.size ≤ idLimit)
    : ∃ chunk,
        (fresh.compile store text true).result = .ok chunk
        ∧ chunk.nodes? (fresh.compile store text true).store = some nodes := by
  have numerals : ∀ letters, .word letters ∈ sequence text
      → ∀ fault, Term.ofWord letters ≠ .error fault := by
    intro letters member fault failed
    obtain ⟨term, meaning⟩ := spells.meaning member
    cases meaning.symm.trans failed
  have compiles : ∃ chunk, (fresh.compile store text true).result = .ok chunk := by
    by_contra refused
    refine (malformed_of_not_compiled formed numerals room ?_).1 spells.balanced
    intro chunk ok
    exact refused ⟨chunk, ok⟩
  obtain ⟨chunk, ok⟩ := compiles
  obtain ⟨others, spellsOthers, decoded⟩ := nodes?_of_compile formed ok
  exact ⟨chunk, ok, by rw [decoded, spellsOthers.unique spells]⟩

/-- Reading undoes printing, but for calls of unreadable words. Every program of printable nodes has
a text, since of the three quotes one always fits a string. From each of its texts, over any store
with room for the ids, a new reader compiles code that stands for just those nodes; and exactly if
an unreadable word is called somewhere in them there is no code and that word is at fault. Witness:
each printed node is the tokens that spell it, because what follows it is a boundary.
-/
theorem compile_printed {store : Store} (formed : store.WellFormed) {nodes : List Node}
    (printable : ∀ node ∈ nodes, node.Printable)
    : (∃ text, Node.Prints nodes text)
      ∧ ∀ text,
          Node.Prints nodes text
          → (fresh.compile store text true).store.size ≤ idLimit
          → ((∀ node ∈ nodes, ¬node.CallsUnreadable)
              → ∃ chunk,
                  (fresh.compile store text true).result = .ok chunk
                  ∧ chunk.nodes? (fresh.compile store text true).store = some nodes)
            ∧ ((∃ node ∈ nodes, node.CallsUnreadable)
              → ∃ fault, (fresh.compile store text true).result = .error (.numeral fault)) := by
  refine ⟨Node.exists_prints printable, ?_⟩
  intro text prints room
  obtain ⟨tokens, transcribed, reads⟩ := prints.tokens printable
  have whole : sequence text = tokens := by
    have alone := reads [] (by simp [Node.Boundary])
    simpa using alone
  rw [← whole] at transcribed
  constructor
  · intro readable
    exact compile_of_spells formed (transcribed.spells readable) room
  · intro called
    exact (compile_numeral_iff formed room).mpr (transcribed.stumbles called)

/-- A block with a string that holds two kinds of quotes, written between single ones, and names
that could be numbers without their sigils, are read back.
-/
theorem compile_printed_quotes_and_sigils
    : let nodes : List Node :=
        [.block [.call "f", .string "it\x27s \x22x\x22", .number (.int (-42))],
          .assign "1", .load "inf"]
      let done := fresh.compile .empty "(f \x27it\x27\x27s \x22x\x22\x27 -42) $=1 $inf".toList true
      ∃ chunk, done.result = .ok chunk ∧ chunk.nodes? done.store = some nodes := by
  intro nodes done
  have printable : ∀ node ∈ nodes, node.Printable := by
    have call : Node.Printable (.call "f") := by
      have plain : ∀ c ∈ "f".toList, isSpecial c = false := by
        simpa using (by decide : isSpecial 'f' = false)
      refine .call (by decide) plain (by decide) ?_
      intro n same
      have none : Numeral.read "f".toList = .ok none := by cbv
      cases none.symm.trans same
    have block : Node.Printable
        (.block [.call "f", .string "it\x27s \x22x\x22", .number (.int (-42))]) := by
      refine .block ?_
      simp only [List.forall_mem_cons]
      exact ⟨call, .string (by decide), .int (by decide), by simp⟩
    simp only [nodes, List.forall_mem_cons]
    have one : ∀ c ∈ "1".toList, isSpecial c = false := by
      simpa using (by decide : isSpecial '1' = false)
    have inf : ∀ c ∈ "inf".toList, isSpecial c = false := by
      simpa using ⟨by decide, by decide, by decide⟩
    exact ⟨block, .assign one, .load inf (by decide), by simp⟩
  have prints : Node.Prints nodes
      "(f \x27it\x27\x27s \x22x\x22\x27 -42) $=1 $inf".toList := by
    have string : Node.Written (.string "it\x27s \x22x\x22") _ :=
      .string (by decide : isQuote '\x27' = true) (by decide) (by decide)
    exact .block (.leaf (.call "f") (.leaf string (.leaf (.int (-42)) .nil)))
      (.leaf (.assign "1") (.leaf (.load "inf") .nil))
  have readable : ∀ node ∈ nodes, ¬node.CallsUnreadable := by
    have plain : ¬Numeral.Unreadable "f".toList := by decide
    intro node member odd
    simp only [nodes, List.mem_cons, List.not_mem_nil, or_false] at member
    rcases member with rfl | rfl | rfl
    · cases odd with
      | block member odd =>
          simp only [List.mem_cons, List.not_mem_nil, or_false] at member
          rcases member with rfl | rfl | rfl <;> cases odd
          contradiction
    · cases odd
    · cases odd
  have slots : (fresh.compile .empty
      "(f \x27it\x27\x27s \x22x\x22\x27 -42) $=1 $inf".toList true).store.size = 6 := by
    cbv
  have room : done.store.size ≤ idLimit := by
    rw [slots]
    decide
  exact ((compile_printed Store.wellFormed_empty printable).2 _ prints room).1 readable

/-- A call whose name is that of infinity with a dotted capital can be printed and is no number, but
its text gives no code.
-/
theorem compile_printed_dotted_infinity
    : Node.Printable (.call "\u0130nf")
      ∧ Node.Prints [.call "\u0130nf"] "\u0130nf".toList
      ∧ ∀ chunk, (fresh.compile .empty "\u0130nf".toList true).result ≠ .ok chunk := by
  have failed : (fresh.compile .empty "\u0130nf".toList true).result
      = .error (.numeral (.unreadable "\u0130nf")) := by
    cbv
  have unread : Numeral.read "\u0130nf".toList = .error (.unreadable "\u0130nf") := by cbv
  have plain : ∀ c ∈ "\u0130nf".toList, isSpecial c = false := by
    simpa using ⟨by decide, by decide, by decide⟩
  refine ⟨.call (by decide) plain (by decide) ?_, ?_, ?_⟩
  · intro n same
    cases unread.symm.trans same
  · exact .leaf (.call "\u0130nf") .nil
  · intro chunk same
    cases failed.symm.trans same

end Reader

end StackText
