import StackText.Proofs.Code.NestedBlocks
import StackText.Proofs.Json.PlainText
import StackText.Proofs.Machine.FetchedCode
import StackText.Proofs.Reader.AppendedSlots
import StackText.Proofs.Reader.TokenPlaces
import StackText.Proofs.Value.StructuralText

/-! Listings lose nothing. The listing of compiled code has one line for each instruction of the
code and of every block nested in it, and one for each of these blocks. Neither names nor values
bring further line feeds into it.
-/

namespace StackText

open Text

-----------------------------------------------------------------------------------------
-- Names of a store
-----------------------------------------------------------------------------------------

namespace Store

/-- (store.Names good) says that a property holds of all names of a store. -/
def Names (good : String → Prop) (store : Store) : Prop :=
  ∀ name, (store.symbols.id? name).isSome → good name

variable {good : String → Prop} {store : Store}

theorem Names.intern (names : store.Names good) {name : String} (new : good name)
    : (store.intern name).2.Names good := by
  intro other known
  rcases isSome_id?_intern.mp known with rfl | old
  · exact new
  · exact names other old

theorem Names.defineBuiltins (names : store.Names good) (words : ∀ b : Builtin, good b.word)
    (builtins : List Builtin)
    : (builtins.foldl (fun store b => (store.define b.word (.builtin b)).2) store).Names good := by
  induction builtins generalizing store with
  | nil => exact names
  | cons b builtins ih => exact ih (names.intern (words b))

end Store

/-- A token names only what it mentions, whether or not it stops compiling. -/
theorem Draft.names_token {good : String → Prop} {draft : Draft} (names : draft.store.Names good)
    {token : Token} (mentioned : ∀ mention ∈ token.mention?, good mention.2)
    : (draft.token token).1.store.Names good := by
  rcases draft.store_token token with same | ⟨v, _, same⟩ | ⟨op, name, mention, same⟩
  · rw [same]; exact names
  · rw [same, Store.alloc_eq]; exact names
  · rw [same]; exact names.intern (mentioned _ mention)

/-- Tokens name only what they mention, up to the one that stops compiling, by induction on them. -/
theorem Draft.names_tokens {good : String → Prop} {draft : Draft} (names : draft.store.Names good)
    {tokens : List Token} (mentioned : ∀ mention ∈ Token.mentions tokens, good mention.2)
    : (draft.tokens tokens).1.store.Names good := by
  induction tokens generalizing draft with
  | nil => exact names
  | cons t tokens ih =>
      have first : (draft.token t).1.store.Names good := names_token names fun mention found =>
        mentioned mention (List.mem_filterMap.mpr ⟨t, List.mem_cons_self .., found⟩)
      rw [Draft.tokens]
      split
      · next next read =>
          rw [read] at first
          refine ih first fun mention found => mentioned mention ?_
          exact ((List.sublist_cons_self t tokens).filterMap _).subset found
      · exact first

-----------------------------------------------------------------------------------------
-- Texts without line feeds
-----------------------------------------------------------------------------------------

namespace Text

/-- (OneLine text) holds if a text has no line feed. -/
def OneLine (text : String) : Prop := '\n' ∉ text.toList

instance (text : String) : Decidable (OneLine text) :=
  inferInstanceAs (Decidable ('\n' ∉ text.toList))

theorem OneLine.append {front back : String} (first : OneLine front) (second : OneLine back)
    : OneLine (front ++ back) := by
  rw [OneLine, String.toList_append, List.mem_append]
  exact fun member => member.elim first second

theorem oneLine_of_isPlain {text : String} (plain : text.toList.all isPlain = true)
    : OneLine text := by
  intro member
  cases List.all_eq_true.mp plain '\n' member

theorem oneLine_decimal (n : Nat)
    : OneLine (toString n) := by
  refine oneLine_of_isPlain ?_
  rw [Nat.toString_eq_repr, Nat.toList_repr]
  exact all_isPlain_toDigits 10 n (by decide) (by decide)

/-- A line feed between quotes is written as an escape. -/
theorem lineFeed_not_mem_escape {quote : Char} (other : quote ≠ '\n') (c : Char)
    : '\n' ∉ escape quote c := by
  have digits : ∀ width, '\n' ∉ hex width c.toNat := fun width member => by
    cases List.all_eq_true.mp (all_isPlain_hex width c.toNat) '\n' member
  fun_cases escape quote c with
  | case1 special =>
      rw [Bool.or_eq_true, decide_eq_true_iff, decide_eq_true_iff] at special
      rcases special with rfl | rfl
      · simp [Ne.symm other]
      · decide
  | case2 | case3 | case4 => decide
  | case5 _ shown _ _ _ => simpa using Ne.symm shown
  | case6 | case7 | case8 => simp [digits]

theorem oneLine_quoted (text : String)
    : OneLine (quoted text) := by
  have quote : quoteFor text.toList ≠ '\n' := by
    rw [quoteFor]
    split <;> decide
  simp [OneLine, quoted, Ne.symm quote, lineFeed_not_mem_escape quote]

/-- The lines of a text, cut at line feeds; an empty text has none. -/
def rows (text : String) : List String :=
  if text = "" then [] else (text.toList.splitOn '\n').map String.ofList

/-- Lines that are put together with line feeds are the lines of the whole. -/
theorem rows_intercalate {all : List String} (each : ∀ line ∈ all, OneLine line ∧ line ≠ "")
    : rows ("\n".intercalate all) = all := by
  cases all with
  | nil => rfl
  | cons first rest =>
      have feed : "\n".toList = ['\n'] := rfl
      have nonempty : "\n".intercalate (first :: rest) ≠ "" := by
        intro empty
        have none := congrArg String.toList empty
        have written := (each first (by simp)).2
        cases rest with
        | nil => exact written (by simpa using none)
        | cons second rest => simp [String.toList_intercalate] at none
      rw [rows, if_neg nonempty, String.toList_intercalate, feed, List.splitOn_intercalate]
      · simp
      · intro l member
        obtain ⟨line, found, rfl⟩ := List.mem_map.mp member
        exact (each line found).1
      · simp

end Text

namespace Listing

variable {store : Store}

/-- What a listing says of a slot is one line, if the names and the values of the store are. -/
theorem oneLine_describe (formed : store.WellFormed) (names : store.Names OneLine)
    (values : store.Every fun v => (∀ text, v ≠ .str text) → OneLine v.render) (id : Nat)
    : OneLine (describe store id) := by
  have blank : OneLine " " := by decide
  rw [describe]
  split
  · next name named =>
      rw [Store.name?, SymbolTable.name?_natCast, Option.join_eq_some_iff] at named
      have known := (formed.inverse name id).mpr named
      have line := names name (Option.isSome_iff_exists.mpr ⟨id, known⟩)
      exact (OneLine.append (show OneLine " (" by decide) line).append (by decide)
  · next text _ _ => exact blank.append (oneLine_quoted text)
  · next v other _ found => exact blank.append (values id v found other)
  · decide

theorem oneLine_margin (indent : Nat)
    : OneLine (margin indent) := by
  simp [OneLine, margin]

theorem oneLine_lineNumber (n : Nat)
    : OneLine (lineNumber n) := by
  refine oneLine_of_isPlain ?_
  simp only [lineNumber, String.toList_ofList, List.all_append, all_isPlain_zeros,
    all_isPlain_toDigits 10 n (by decide) (by decide), Bool.and_self]

theorem oneLine_text (f : Function)
    : OneLine f.text := by
  rw [Function.text]
  split
  · next id _ =>
      exact (OneLine.append (show OneLine "<func:" by decide) (oneLine_decimal id)).append
        (by decide)
  · decide

/-- The line of an instruction is one line, if the names and the values of the store are. -/
theorem oneLine_line (formed : store.WellFormed) (names : store.Names OneLine)
    (values : store.Every fun v => (∀ text, v ≠ .str text) → OneLine v.render) (indent number : Nat)
    (i : Instruction)
    : OneLine (line (some store) (margin indent) number i) := by
  have opcode : OneLine i.op.name := by cases i.op <;> decide
  have middle : OneLine s!": {i.op.name} {i.id}" :=
    ((OneLine.append (show OneLine ": " by decide) opcode).append (by decide)).append
      (oneLine_decimal i.id)
  exact (((oneLine_margin indent).append (oneLine_lineNumber number)).append middle).append
    (oneLine_describe formed names values i.id)

theorem oneLine_header (indent : Nat) (f : Function)
    : OneLine (header indent f) :=
  (((oneLine_margin indent).append (by decide)).append (oneLine_text f)).append (by decide)

theorem oneLine_instructionLines (formed : store.WellFormed) (names : store.Names OneLine)
    (values : store.Every fun v => (∀ text, v ≠ .str text) → OneLine v.render) (indent : Nat)
    (chunk : Chunk)
    : ∀ line ∈ instructionLines store indent chunk, OneLine line ∧ line ≠ "" := by
  intro written member
  obtain ⟨⟨i, number⟩, _, rfl⟩ := List.mem_map.mp member
  refine ⟨oneLine_line formed names values indent number i, fun empty => ?_⟩
  simpa [line] using congrArg String.toList empty

/-- All lines of a listing are lines, and none is empty. -/
theorem oneLine_wholeLines (formed : store.WellFormed) (names : store.Names OneLine)
    (values : store.Every fun v => (∀ text, v ≠ .str text) → OneLine v.render) (indent : Nat)
    (chunk : Chunk)
    : ∀ line ∈ wholeLines store indent chunk, OneLine line ∧ line ≠ "" := by
  have own := oneLine_instructionLines formed names values
  intro line member
  rcases List.mem_append.mp member with here | nested
  · exact own indent chunk line here
  · obtain ⟨⟨depth, f⟩, _, found⟩ := List.mem_flatMap.mp nested
    rcases List.mem_cons.mp found with rfl | inner
    · refine ⟨oneLine_header (indent + depth) f, fun empty => ?_⟩
      simpa [header] using congrArg String.toList empty
    · exact own _ f.chunk line inner

theorem length_instructionLines {chunk : Chunk} (closed : chunk.Closed store.symbols)
    (indent : Nat)
    : (instructionLines store indent chunk).length = chunk.size := by
  obtain ⟨instructions, encodes, _⟩ := closed
  rw [instructionLines, List.length_map, List.length_zipIdx, encodes.instructions_eq,
    encodes.size_eq]
  rfl

theorem length_wholeLines {code : List Chunk} (orderly : store.Orderly code) {chunk : Chunk}
    (closed : chunk.Closed store.symbols) (indent : Nat)
    : (wholeLines store indent chunk).length
      = chunk.size + ((chunk.nested store).map fun b => b.2.chunk.size + 1).sum := by
  rw [wholeLines, List.length_append, length_instructionLines closed, List.length_flatMap]
  congr 2
  refine List.map_congr_left ?_
  rintro ⟨depth, f⟩ member
  obtain ⟨id, block⟩ := (orderly.mem_nested.mp member).exists_block
  have inner : f.chunk.Closed store.symbols :=
    orderly.closed.values id _ (Store.block?_eq_some.mp block)
  rw [blockLines, List.length_cons, length_instructionLines inner]

end Listing

-----------------------------------------------------------------------------------------
-- Listings of compiled code
-----------------------------------------------------------------------------------------

/-- The name in a word has the characters of the word. -/
theorem Term.mem_of_reference? {letters : List Char} {term : Term} {op : Opcode} {name : String}
    (meaning : Term.ofWord letters = .ok term) (refers : term.reference? = some (op, name))
    {c : Char} (member : c ∈ name.toList)
    : c ∈ letters := by
  cases term with
  | number n => cases refers
  | assign _ | load _ | call _ =>
      cases refers
      rw [letters_of_ofWord meaning rfl]
      simp [member]

theorem Value.oneLine_render_of_isLiteral {id : Nat} {v : Value} (literal : v.IsLiteral id)
    (other : ∀ text, v ≠ .str text)
    : OneLine v.render := by
  rw [render_of_ne_str other]
  cases v with
  | int n => exact oneLine_of_isPlain (all_isPlain_decimalInt n)
  | float x identity => exact oneLine_of_isPlain (FloatText.all_isPlain_text x)
  | func f => exact Listing.oneLine_text f
  | str text => exact absurd rfl (other text)
  | nil | builtin _ | pair _ _ _ | truth _ => cases literal

namespace Built

variable {store : Store} {readers : List Reader} {code : List Chunk}

/-- The names of a store that texts were compiled over are words, and so have no line feeds. -/
theorem names (built : Built store readers code)
    : store.Names OneLine := by
  induction built with
  | empty => intro name known; simp [Store.empty, SymbolTable.id?] at known
  | builtins =>
      have none : Store.empty.Names OneLine := by
        intro name known
        simp [Store.empty, SymbolTable.id?] at known
      exact none.defineBuiltins (fun b => by cases b <;> decide) Builtin.all
  | reader _ ih => exact ih
  | piece _ text final ih =>
      rw [Reader.compile_eq, Reader.store_conclude]
      refine Draft.names_tokens ih fun mention found member => ?_
      obtain ⟨token, read, mentions⟩ := List.mem_filterMap.mp found
      cases token with
      | word letters =>
          cases meaning : Term.ofWord letters with
          | error fault => simp [Token.mention?, meaning, Except.toOption] at mentions
          | ok term =>
              have refers : term.reference? = some mention := by
                simpa [Token.mention?, meaning, Except.toOption] using mentions
              exact lineFeed_not_mem_of_plain (Token.plain_of_mem_sequence read)
                (Term.mem_of_reference? meaning refers member)
      | openBlock | closeBlock | string _ | unterminated _ => cases mentions

/-- Values that are written in texts are shown on one line. -/
theorem values (built : Built store readers code)
    : store.Every fun v => (∀ text, v ≠ .str text) → OneLine v.render := by
  have nil : OneLine Value.nil.render := by
    rw [Value.render_of_ne_str (by simp)]
    decide
  induction built with
  | empty => intro id v found; simp [Store.empty, Store.get?] at found
  | builtins =>
      refine Store.every_withBuiltins (fun _ => nil) fun b other => ?_
      rw [Value.render_of_ne_str other]
      cases b <;> decide
  | reader _ ih => exact ih
  | piece built text final ih =>
      exact (Reader.appends_compile built.orderly.closed.formed _ text final).every ih
        (fun _ => nil) fun _ _ literal => Value.oneLine_render_of_isLiteral literal

/-- Listings of compiled code end and lose nothing. Over every store that readers have compiled
texts over, a block loads only unnamed slots older than its own, and no unnamed slot is loaded by
two instructions, be they in blocks of the store, in open blocks or in finished code. So all
finished code has a listing: its lines are one for each instruction of the code and then, for each
block nested in it at any depth, a header and one line for each instruction of the block, without a
block being listed twice; and no deeper limit on the nesting changes it. Witness: blocks that load
each other form a tree, along which the ids fall.
-/
theorem listing_is_whole (built : Built store readers code)
    : (∀ id f, store.get? id = some (.func f) → f.Placed store id)
      ∧ (store.loaded (readers.flatMap Reader.code ++ code)).Nodup
      ∧ ∀ chunk ∈ code, ∀ indent, ∃ text,
          chunk.listing (some store) indent = .ok text
          ∧ rows text = Listing.wholeLines store indent chunk
          ∧ (rows text).length
            = chunk.size + ((chunk.nested store).map fun b => b.2.chunk.size + 1).sum
          ∧ (∀ depth f, (depth, f) ∈ chunk.nested store ↔ chunk.Nests store depth f)
          ∧ ((chunk.nested store).map fun b => b.2.id).Nodup
          ∧ ∀ limit, store.size < limit →
              Listing.linesTo (some store) limit indent chunk = .ok (rows text) := by
  have orderly := built.orderly
  refine ⟨orderly.placed, orderly.once, ?_⟩
  intro chunk member indent
  have other : chunk ∈ readers.flatMap Reader.code ++ code := List.mem_append_right _ member
  have closed := orderly.others chunk other
  have once := orderly.nodup_loads (List.mem_append_right _ other)
  have split := rows_intercalate
    (Listing.oneLine_wholeLines orderly.closed.formed built.names built.values indent chunk)
  have listed : ∀ limit, store.size < limit → Listing.linesTo (some store) limit indent chunk
      = .ok (Listing.wholeLines store indent chunk) := by
    intro limit beyond
    obtain ⟨depth, rfl⟩ : ∃ depth, limit = depth + 1 := ⟨limit - 1, by omega⟩
    refine Listing.linesTo_eq orderly closed once (fun id loads => ?_) indent
    have given := closed.lt_of_mem_loads loads
    rw [← Store.covered] at given
    exact Nat.lt_of_lt_of_le given (Nat.le_of_lt_succ beyond)
  refine ⟨"\n".intercalate (Listing.wholeLines store indent chunk), ?_, split, ?_,
    fun _ _ => orderly.mem_nested, ?_, ?_⟩
  · simp only [Chunk.listing, Option.map_some, Option.getD_some, listed _ (Nat.lt_succ_self _)]
    rfl
  · rw [split, Listing.length_wholeLines orderly closed]
  · exact orderly.nodup_nested (orderly.heads_of_mem other) once fun id _ => orderly.nodup_family id
  · rwa [split]

/-- A block within a block, compiled in two pieces behind an empty one. -/
theorem listing_of_interrupted_block
    : let first := Reader.fresh.compile .empty "() ((1".toList false
      let second := first.reader.compile first.store ") 'a') $=f".toList true
      ∃ chunk text,
        second.result = .ok chunk
        ∧ chunk.listing (some second.store) 0 = .ok text
        ∧ (rows text).length = 9
        ∧ (chunk.nested second.store).map (fun b => (b.1, b.2.id))
          = [(0, some 0), (0, some 4), (1, some 2)] := by
  have facts : let first := Reader.fresh.compile .empty "() ((1".toList false
      let second := first.reader.compile first.store ") 'a') $=f".toList true
      second.result.toOption.map (fun chunk =>
          (chunk.size, (chunk.nested second.store).map fun b => (b.1, b.2.id, b.2.chunk.size)))
        = some (3, [(0, some 0, 0), (0, some 4, 2), (1, some 2, 1)]) := by
    cbv
  have kept : (Reader.fresh.compile .empty "() ((1".toList false).recovered
      = (Reader.fresh.compile .empty "() ((1".toList false).reader := by
    cbv
  intro first second
  change second.result.toOption.map _ = _ at facts
  have start : Built .empty [.fresh] [] := .reader .empty
  have half : Built first.store [first.reader] (first.result.toOption.toList ++ []) :=
    kept ▸ @Built.piece _ [] .fresh [] [] start _ false
  have built : Built second.store [second.recovered] (second.result.toOption.toList ++ _) :=
    @Built.piece _ [] first.reader [] _ half _ true
  cases done : second.result with
  | error fault => rw [done] at facts; cases facts
  | ok chunk =>
      rw [done] at facts
      obtain ⟨size, nested⟩ := Prod.mk.inj (Option.some.inj facts)
      obtain ⟨_, _, listings⟩ := listing_is_whole built
      have finished : chunk ∈ second.result.toOption.toList := by simp [done, Except.toOption]
      obtain ⟨text, listed, _, length, _⟩ := listings chunk (List.mem_append_left _ finished) 0
      refine ⟨chunk, text, rfl, listed, ?_, ?_⟩
      · have sizes := congrArg (List.map fun b => b.2.2 + 1) nested
        rw [List.map_map] at sizes
        rw [length, size]
        exact congrArg (fun counts => 3 + List.sum counts) sizes
      · have depths := congrArg (List.map fun b => (b.1, b.2.1)) nested
        rw [List.map_map] at depths
        exact depths

end Built

end StackText
