import Mathlib
import StackText.Proofs.Machine.StoreExtension
import StackText.Proofs.Reader.Resumption
import StackText.Proofs.Reader.SlotValues
import StackText.Proofs.Session.Evaluation

/-! A program may be run whole or line by line. Whole, all of it is compiled before it runs; line by
line, each line that completes some code is compiled and run before the next is read. Both come to
the same, since compiling does not look at the values that running changes, and running code does
not look at the slots that later lines add.
-/

namespace StackText

-----------------------------------------------------------------------------------------
-- Lines
-----------------------------------------------------------------------------------------

namespace Text

/-- The lines of a text, cut behind every line feed. -/
def lines : List Char → List (List Char)
  | [] => []
  | c :: rest =>
      if c = '\n' then [c] :: lines rest
      else
        match lines rest with
        | [] => [[c]]
        | line :: more => (c :: line) :: more

/-- (Cut text lines) holds if the lines make up the text, and all but perhaps the last end with a
line feed.
-/
inductive Cut : List Char → List (List Char) → Prop
  | nil
    : Cut [] []
  | last (line)
    : Cut line [line]
  | line {line text lines} (ends : line.getLast? = some '\n') (rest : Cut text lines)
    : Cut (line ++ text) (line :: lines)

/-- The lines of a text make it up, by induction on the text. -/
theorem cut_lines (text : List Char)
    : Cut text (lines text) := by
  induction text with
  | nil => exact .nil
  | cons c rest ih =>
      rw [lines]
      split
      · next feed => exact @Cut.line [c] _ _ (by rw [feed]; rfl) ih
      · generalize lines rest = cut at ih ⊢
        cases ih with
        | nil => exact .last [c]
        | last => exact .last (c :: rest)
        | @line line _ _ ends later =>
            have joined : (c :: line).getLast? = some '\n' := by
              rw [List.getLast?_cons, ends]
              rfl
            exact .line joined later

end Text

-----------------------------------------------------------------------------------------
-- What follows a line
-----------------------------------------------------------------------------------------

theorem Reader.compile_nil (store : Store)
    : fresh.compile store [] true = ⟨.ok {}, fresh, store⟩ := by
  rw [compile_eq]
  simp [fresh, conclude, Draft.tokens]

/-- (Follows rest table back larger) holds if what follows a line compiles to this code, over any
store with this symbol table, and adds the further ids and slots of the larger store.
-/
structure Follows (rest : List Char) (table : SymbolTable) (back : Chunk) (larger : Store)
    : Prop where
  grows : table.names.toList <+: larger.symbols.names.toList
  closed : back.Closed larger.symbols
  result : ∀ store, store.symbols = table
    → (Reader.fresh.compile store rest true).result = .ok back
  store : ∀ store, store.symbols = table
    → (Reader.fresh.compile store rest true).store = store.extend larger

/-- Text that compiles whole, after a line of it that completes some code: the code of the line is
followed by the code of the rest, whatever running the line does to the values of the slots.
-/
theorem exists_follows {reader : Reader} {store : Store} (values : store.Closed)
    (blocks : reader.Closed store.symbols) {line rest : List Char}
    (ends : line.getLast? = some '\n') {front chunk : Chunk}
    (complete : (reader.compile store line false).result = .ok front)
    (compiles : (reader.compile store (line ++ rest) true).result = .ok chunk)
    : ∃ back larger,
        chunk = front ++ back
        ∧ (reader.compile store (line ++ rest) true).store
          = (reader.compile store line false).store.extend larger
        ∧ Follows rest (reader.compile store line false).store.symbols back larger := by
  obtain ⟨cleared, result, same⟩ := Reader.compile_append_of_ok ends complete rest true
  obtain ⟨first, _⟩ := Reader.closed_compile values blocks line false
  generalize reader.compile store line false = compiled at *
  rw [cleared] at result same
  obtain ⟨later, grows⟩ :=
    Reader.closed_compile first.store (Reader.closed_fresh compiled.store.symbols) rest true
  -- Compiling does not look at values, so what follows compiles alike over all of them.
  have alike : ∀ after : Store, after.symbols = compiled.store.symbols → _ :=
    fun after known => Reader.compile_of_symbols known .fresh rest true
  have within : (Reader.fresh.compile compiled.store rest true).store
      = compiled.store.extend (Reader.fresh.compile compiled.store rest true).store :=
    congrArg Compiled.store (alike _ rfl)
  rw [compiles] at result
  cases code : (Reader.fresh.compile compiled.store rest true).result with
  | error fault => rw [code] at result; cases result
  | ok back =>
      rw [code] at result
      cases result
      refine ⟨back, _, rfl, same.trans within, grows.names, later.code back code, ?_, ?_⟩
      · intro after known
        rw [alike after known]
        exact code
      · intro after known
        rw [alike after known]

-----------------------------------------------------------------------------------------
-- Runs of closed code
-----------------------------------------------------------------------------------------

namespace Session

/-- Takes lines one after another. The first failure ends it. -/
def feedAll (fuel : Nat) : Session → List (List Char) → Option (Except Failure Unit × Session)
  | s, [] => some (.ok (), s)
  | s, line :: lines =>
      match s.feed fuel line with
      | none => none
      | some (.error failure, s) => some (.error failure, s)
      | some (.ok _, s) => feedAll fuel s lines

variable {compiled : List Chunk} {s : Session}

/-- Code that is executed to its end is run to its end, with any fuel that suffices. -/
theorem Closed.runs (closed : s.Closed compiled) {chunk : Chunk}
    (closedCode : chunk.Closed s.machine.store.symbols) {code : List Instruction}
    (encodes : chunk.Encodes code) {last : State}
    (within
      : ExecutesWithin s.machine.depthLimit (s.machine.depthLimit - 1) code s.machine.state none
          last)
    : ∃ next enough,
        next.machine = last.calling [] s.machine.depthLimit
        ∧ next.reader = s.reader
        ∧ ∀ fuel, enough ≤ fuel → s.run fuel chunk = some (.ok next.machine.top, next) := by
  obtain ⟨listed, _, reader, runs⟩ := closed.run_eq closedCode
  obtain ⟨enough, ran⟩ := within.runs closed.room encodes.fits
  refine ⟨{ listed with machine := last.calling [] s.machine.depthLimit }.traceStack, enough,
    by simp, by simp [reader], ?_⟩
  intro fuel large
  rw [runs, State.runChunk_eq encodes, Machine.run_mono ran large]
  simp [settle]

-----------------------------------------------------------------------------------------
-- Line after line
-----------------------------------------------------------------------------------------

/-- The state of a session once a piece of text is compiled. -/
def stateAfter (s : Session) (text : List Char) (final : Bool) : State :=
  { s.machine.state with store := (s.reader.compile s.machine.store text final).store }

/-- A line that completes some code runs it, and leaves nothing open. -/
theorem Closed.feedComplete (closed : s.Closed compiled) {line : List Char} {chunk : Chunk}
    (compiles : (s.reader.compile s.machine.store line false).result = .ok chunk)
    {code : List Instruction} (encodes : chunk.Encodes code) {last : State}
    (within
      : ExecutesWithin s.machine.depthLimit (s.machine.depthLimit - 1) code
          (s.stateAfter line false) none last)
    : ∃ next enough,
        next.machine = last.calling [] s.machine.depthLimit
        ∧ next.reader = .fresh
        ∧ next.Closed compiled
        ∧ ∀ fuel, enough ≤ fuel → s.feed fuel line = some (.ok true, next) := by
  have after := closed.compile_ok compiles
  have code := after.code chunk (List.mem_cons_self ..)
  obtain ⟨next, enough, machine, reader, runs⟩ := after.runs code encodes within
  refine ⟨next, enough, machine, reader.trans (Reader.reader_compile (.inl ⟨chunk, compiles⟩)),
    kept_closed.fewer (after.run code (runs enough (Nat.le_refl _))), ?_⟩
  intro fuel large
  have read : s.compile line false = (.ok chunk, (s.compile line false).2) :=
    Prod.ext compiles rfl
  rw [Session.feed, read]
  simp only [runs fuel large]

theorem feed_incomplete {line : List Char} {what : Unfinished}
    (compiles : (s.reader.compile s.machine.store line false).result = .error (.incomplete what))
    (fuel : Nat)
    : s.feed fuel line = some (.ok false, (s.compile line false).2) := by
  have read : s.compile line false = (.error (.incomplete what), (s.compile line false).2) :=
    Prod.ext compiles rfl
  rw [Session.feed, read]

/-- (s.Completes text limit last) holds if the text, whole and as the end of all text, compiles to
code that is executed to its end, which leads to the last state.
-/
def Completes (s : Session) (text : List Char) (limit : Nat) (last : State) : Prop :=
  s.machine.depthLimit = limit
  ∧ ∃ chunk code,
      (s.reader.compile s.machine.store text true).result = .ok chunk
      ∧ chunk.Encodes code
      ∧ ExecutesWithin limit (limit - 1) code (s.stateAfter text true) none last

/-- A line that leaves something open is compiled together with what follows it. -/
theorem Completes.ofIncomplete {line rest : List Char} (ends : line.getLast? = some '\n')
    {limit : Nat} {last : State} (completes : s.Completes (line ++ rest) limit last)
    {what : Unfinished}
    (incomplete : (s.reader.compile s.machine.store line false).result = .error (.incomplete what))
    : rest ≠ [] ∧ Completes (s.compile line false).2 rest limit last := by
  obtain ⟨depth, chunk, code, compiles, encodes, within⟩ := completes
  obtain ⟨result, store, _⟩ := Reader.compile_append_of_incomplete ends incomplete rest true
  constructor
  · rintro rfl
    rw [List.append_nil] at compiles
    rcases Reader.compile_final s.reader s.machine.store line with same | ⟨_, _, malformed⟩
    · rw [same, incomplete] at compiles; cases compiles
    · rw [malformed] at compiles; cases compiles
  · refine ⟨depth, chunk, code, result.symm.trans compiles, encodes, ?_⟩
    rw [stateAfter, store] at within
    exact within

/-- A line that completes some code runs it before what follows is compiled: the values that
running changes do not matter to compiling, and the slots that what follows takes do not matter to
running.
-/
theorem Completes.ofComplete (closed : s.Closed compiled) {line rest : List Char}
    (ends : line.getLast? = some '\n') {limit : Nat} {last : State}
    (completes : s.Completes (line ++ rest) limit last) {front : Chunk}
    (complete : (s.reader.compile s.machine.store line false).result = .ok front)
    : ∃ next enough,
        next.Closed compiled
        ∧ next.reader = .fresh
        ∧ next.Completes rest limit last
        ∧ ∀ fuel, enough ≤ fuel → s.feed fuel line = some (.ok true, next) := by
  obtain ⟨rfl, chunk, code, compiles, encodes, within⟩ := completes
  have after := closed.compile_ok complete
  obtain ⟨frontCode, frontEncodes, frontClosed⟩ := after.code front (List.mem_cons_self ..)
  obtain ⟨back, larger, rfl, store, follows⟩ :=
    exists_follows closed.state.store closed.reader ends complete compiles
  obtain ⟨backCode, backEncodes, _⟩ := follows.closed
  obtain rfl : code = frontCode ++ backCode :=
    Except.ok.inj (encodes.instructions_eq.symm.trans
      (frontEncodes.append backEncodes).instructions_eq)
  have start : s.stateAfter (line ++ rest) true
      = (s.stateAfter line false).extend larger :=
    congrArg (fun store => { s.machine.state with store }) store
  rw [start] at within
  obtain ⟨middle, first, onward⟩ := within.split
  obtain ⟨small, rfl, alone⟩ := first.restrict after.state frontClosed follows.grows
  obtain ⟨next, enough, machine, reader, nextClosed, feeds⟩ :=
    closed.feedComplete complete frontEncodes alone
  have table : next.machine.store.symbols
      = (s.reader.compile s.machine.store line false).store.symbols := by
    rw [machine]
    exact (alone.closed after.state).2
  refine ⟨next, enough, nextClosed, reader, ⟨by rw [machine]; rfl, back, backCode, ?_, backEncodes,
    ?_⟩, feeds⟩
  · rw [reader]
    exact follows.result _ table
  · have later : next.stateAfter rest true = small.extend larger := by
      rw [stateAfter, reader, follows.store _ table, machine]
      rfl
    rw [later]
    exact onward

/-- One line of a text: taking it leaves a session that completes the rest of the text to the same
state.
-/
theorem Completes.feed (closed : s.Closed compiled) {line rest : List Char}
    (ends : line.getLast? = some '\n') {limit : Nat} {last : State}
    (completes : s.Completes (line ++ rest) limit last)
    : ∃ next enough complete,
        next.Closed compiled
        ∧ (rest = [] → next.reader = .fresh)
        ∧ next.Completes rest limit last
        ∧ ∀ fuel, enough ≤ fuel → s.feed fuel line = some (.ok complete, next) := by
  cases result : (s.reader.compile s.machine.store line false).result with
  | ok front =>
      obtain ⟨next, enough, nextClosed, reader, later, feeds⟩ :=
        completes.ofComplete closed ends result
      exact ⟨next, enough, true, nextClosed, fun _ => reader, later, feeds⟩
  | error fault =>
      by_cases incomplete : ∃ what, fault = .incomplete what
      · obtain ⟨what, rfl⟩ := incomplete
        obtain ⟨more, later⟩ := completes.ofIncomplete ends result
        exact ⟨_, 0, false, closed.compile_incomplete result, fun none => absurd none more, later,
          fun fuel _ => feed_incomplete result fuel⟩
      · obtain ⟨_, _, _, compiles, _⟩ := completes
        have failed := (Reader.compile_append_of_error ends result
          (fun what same => incomplete ⟨what, same⟩) rest true).1
        rw [failed] at compiles
        cases compiles

/-- All lines of a text: taking them one after another leads to the state that the whole text leads
to, by induction on the lines.
-/
theorem Completes.feedAll {text : List Char} {lines : List (List Char)} (cut : Text.Cut text lines)
    (closed : s.Closed compiled) (starts : text = [] → s.reader = .fresh) {limit : Nat}
    {last : State} (completes : s.Completes text limit last)
    : ∃ next enough,
        next.machine = last.calling [] limit
        ∧ next.reader = .fresh
        ∧ ∀ fuel, enough ≤ fuel → s.feedAll fuel lines = some (.ok (), next) := by
  induction cut generalizing s with
  | nil =>
      obtain ⟨rfl, chunk, code, compiles, encodes, within⟩ := completes
      refine ⟨s, 0, ?_, starts rfl, fun _ _ => rfl⟩
      rw [stateAfter, starts rfl, Reader.compile_nil] at within
      rw [starts rfl, Reader.compile_nil] at compiles
      cases compiles
      obtain rfl : code = [] := encode_eq_nil.mp encodes.bytes.symm
      generalize s.machine.depthLimit - 1 = room at within
      cases within
      have idle := closed.idle
      generalize s.machine = machine at idle ⊢
      cases machine
      subst idle
      rfl
  | last line =>
      obtain ⟨rfl, chunk, code, compiles, encodes, within⟩ := completes
      have same : s.reader.compile s.machine.store line true
          = s.reader.compile s.machine.store line false := by
        rcases Reader.compile_final s.reader s.machine.store line with same | ⟨_, _, malformed⟩
        · exact same
        · rw [malformed] at compiles; cases compiles
      rw [stateAfter, same] at within
      rw [same] at compiles
      obtain ⟨next, enough, machine, reader, _, feeds⟩ :=
        closed.feedComplete compiles encodes within
      refine ⟨next, enough, machine, reader, ?_⟩
      intro fuel large
      rw [Session.feedAll, feeds fuel large]
      rfl
  | @line line text lines ends _ ih =>
      obtain ⟨middle, enough, _, middleClosed, cleared, later, feeds⟩ := completes.feed closed ends
      obtain ⟨next, more, machine, reader, rest⟩ := ih middleClosed cleared later
      refine ⟨next, max enough more, machine, reader, ?_⟩
      intro fuel large
      rw [Session.feedAll, feeds fuel (by omega)]
      exact rest fuel (by omega)

-----------------------------------------------------------------------------------------
-- The whole program
-----------------------------------------------------------------------------------------

theorem run_ok {next : Session} {fuel : Nat} {chunk : Chunk} {value : Value}
    (ran : s.run fuel chunk = some (.ok value, next))
    : s.machine.runChunk fuel chunk = some ⟨none, next.machine⟩ := by
  rw [Session.run] at ran
  split at ran
  · cases ran
  · next listed lists =>
      rw [(listCode_ok lists).1] at ran
      split at ran
      · cases ran
      · cases ran
      · next machine ended => cases ran; rw [ended, machine_traceStack]

/-- A text that was compiled and run to its end completes, with the machine it has led to. -/
theorem Closed.completes (closed : s.Closed compiled) {next : Session} {fuel : Nat}
    {text : List Char} {value : Value} (ran : s.eval fuel text true = some (.ok value, next))
    : ∃ last, next.machine = last.calling [] s.machine.depthLimit
        ∧ s.Completes text s.machine.depthLimit last := by
  have traced : (s.traceText text).compile text true
      = ((s.compile text true).1, {
          s.traceText text with
          reader := (s.compile text true).2.reader
          machine := (s.compile text true).2.machine
        }) := by
    simp only [Session.compile, machine_traceText, reader_traceText]
  rw [Session.eval, traced] at ran
  cases compiles : (s.compile text true).1 with
  | error fault => rw [compiles] at ran; cases ran
  | ok chunk =>
      rw [compiles] at ran
      have ended := run_ok ran
      have after := closed.compile_ok compiles
      obtain ⟨code, encodes, _⟩ := after.code chunk (List.mem_cons_self ..)
      rw [State.runChunk_eq encodes] at ended
      obtain ⟨last, machine, within⟩ :=
        executesWithin_of_run after.room after.state encodes.fits ended
      exact ⟨last, machine, rfl, chunk, code, compiles, encodes, within⟩

/-- A program that runs to its end whole does so line by line: from a session in which nothing is
open, taking its lines one after another never fails, leaves nothing open, and ends with the same
machine, that is the same stack, symbol table, store, remaining input and output. Witness: each line
that completes some code executes the first part of what the whole program executes, over the slots
known so far, and the calls at its end have one frame less beneath them.
-/
theorem feedAll_lines_of_eval {s next : Session} (reachable : Reachable compiled s)
    (fresh : s.reader = .fresh) {fuel : Nat} {text : List Char} {value : Value}
    (ran : s.eval fuel text true = some (.ok value, next))
    : ∃ last enough,
        (∀ fuel', enough ≤ fuel' → s.feedAll fuel' (Text.lines text) = some (.ok (), last))
        ∧ last.reader.isPending = false
        ∧ last.machine = next.machine := by
  have closed := reachable.closed
  obtain ⟨state, machine, completes⟩ := closed.completes ran
  obtain ⟨last, enough, same, cleared, feeds⟩ :=
    completes.feedAll (Text.cut_lines text) closed fun _ => fresh
  exact ⟨last, enough, feeds, by rw [cleared]; rfl, same.trans machine.symm⟩

/-- A program with a block across two lines, and calls at the ends of lines. -/
theorem feedAll_block_across_lines
    : ∃ last enough,
        (∀ fuel, enough ≤ fuel
          → (Session.new [] {}).feedAll fuel
              ["( 1 +\n".toList, ") $=f 5 f\n".toList, "f".toList]
            = some (.ok (), last))
        ∧ last.reader.isPending = false
        ∧ last.machine.stack = [.int 7] := by
  have lines : Text.lines "( 1 +\n) $=f 5 f\nf".toList
      = ["( 1 +\n".toList, ") $=f 5 f\n".toList, "f".toList] := by
    cbv
  have ran : ((Session.new [] {}).eval 40 "( 1 +\n) $=f 5 f\nf".toList true).map
        (fun ended => (ended.1, ended.2.machine.stack))
      = some (.ok (.int 7), [.int 7]) := by
    cbv
  obtain ⟨⟨result, next⟩, ended, same⟩ := Option.map_eq_some_iff.mp ran
  obtain ⟨rfl, stack⟩ := Prod.mk.inj same
  obtain ⟨last, enough, feeds, done, machine⟩ :=
    feedAll_lines_of_eval (.new [] {}) rfl ended
  exact ⟨last, enough, lines ▸ feeds, done, machine ▸ stack⟩

end Session

end StackText
