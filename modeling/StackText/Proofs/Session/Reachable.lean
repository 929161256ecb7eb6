import StackText.Proofs.Machine.BigStep
import StackText.Proofs.Reader.ClosedDraft
import StackText.Proofs.Session.Continuation

/-! The sessions that can be reached, and what they have in common: all code they hold is closed,
no call is active and at least one may be.
-/

namespace StackText

/-- The settings leave room for at least one call. -/
theorem Settings.callDepth_pos (settings : Settings)
    : 0 < settings.callDepth := by
  rw [callDepth]
  split
  · split
    · omega
    · decide
  · decide

namespace Session

-----------------------------------------------------------------------------------------
-- What leaves machine and reader alone
-----------------------------------------------------------------------------------------

@[simp] theorem machine_traceText (s : Session) (text : List Char)
    : (s.traceText text).machine = s.machine := by
  rw [traceText]
  split <;> rfl

@[simp] theorem reader_traceText (s : Session) (text : List Char)
    : (s.traceText text).reader = s.reader := by
  rw [traceText]
  split <;> rfl

@[simp] theorem machine_traceStack (s : Session)
    : s.traceStack.machine = s.machine := by
  rw [traceStack]
  split <;> rfl

@[simp] theorem reader_traceStack (s : Session)
    : s.traceStack.reader = s.reader := by
  rw [traceStack]
  split <;> rfl

/-- A listing goes to the log only. -/
theorem listCode_ok {s listed : Session} {chunk : Chunk} (lists : s.listCode chunk = .ok listed)
    : listed.machine = s.machine ∧ listed.reader = s.reader ∧ listed.listsCode = s.listsCode := by
  rw [listCode] at lists
  split at lists
  · split at lists
    · cases lists; exact ⟨rfl, rfl, rfl⟩
    · cases lists
  · cases lists; exact ⟨rfl, rfl, rfl⟩

/-- Running code changes the machine as its run does, or not at all if the code cannot be listed.
-/
theorem machine_of_run {s next : Session} {fuel : Nat} {chunk : Chunk}
    {result : Except Failure Value} (ran : s.run fuel chunk = some (result, next))
    : next.machine = s.machine
      ∨ ∃ ending, s.machine.runChunk fuel chunk = some ending ∧ next.machine = ending.machine := by
  rw [Session.run] at ran
  split at ran
  · cases ran; exact .inl rfl
  · next listed lists =>
      rw [(listCode_ok lists).1] at ran
      split at ran
      · cases ran
      · next ended => cases ran; exact .inr ⟨_, ended, rfl⟩
      · next ended => cases ran; exact .inr ⟨_, ended, by simp⟩

-----------------------------------------------------------------------------------------
-- Closed sessions
-----------------------------------------------------------------------------------------

/-- (Closed compiled s) holds if all code that the session holds or has given out is closed over its
symbol table, no call is active and at least one may be.
-/
structure Closed (compiled : List Chunk) (s : Session) : Prop where
  state : s.machine.state.Closed
  reader : s.reader.Closed s.machine.store.symbols
  code : ∀ chunk ∈ compiled, chunk.Closed s.machine.store.symbols
  idle : s.machine.frames = []
  room : 0 < s.machine.depthLimit

variable {compiled : List Chunk} {s next : Session}

/-- Only the machine and the reader matter. -/
theorem Closed.congr (closed : s.Closed compiled) (machine : next.machine = s.machine)
    (reader : next.reader = s.reader)
    : next.Closed compiled := by
  obtain ⟨state, blocks, code, idle, room⟩ := closed
  exact ⟨machine ▸ state, reader ▸ machine ▸ blocks, machine ▸ code, machine ▸ idle,
    machine ▸ room⟩

theorem Closed.note (closed : s.Closed compiled) (text : String)
    : (s.note text).Closed compiled :=
  closed.congr rfl rfl

theorem closed_new (settings : Settings) (console : Console)
    : (Session.new settings console).Closed [] :=
  ⟨⟨Store.closed_withBuiltins, by simp [Session.new, Machine.state]⟩, Reader.closed_fresh _,
    by simp, rfl, settings.callDepth_pos⟩

theorem Closed.resetReader (closed : s.Closed compiled)
    : s.resetReader.Closed compiled :=
  ⟨closed.state, Reader.closed_fresh _, closed.code, closed.idle, closed.room⟩

theorem Closed.define (closed : s.Closed compiled) (name : String) {v : Value}
    (value : v.Closed s.machine.store.symbols)
    : (s.define name v).2.Closed compiled := by
  have grows := (Store.grows_intern s.machine.store name).names
  exact ⟨⟨closed.state.store.define name value, fun w member =>
      (closed.state.stack w member).grown grows⟩,
    ⟨fun chunk member => (closed.reader.outer chunk member).grown grows,
      closed.reader.chunk.grown grows⟩,
    fun chunk member => (closed.code chunk member).grown grows, closed.idle, closed.room⟩

theorem recover_compile (s : Session) (text : List Char) (final : Bool)
    : (s.compile text final).2.recover ((s.compile text final).1.mapError .read)
      = {
          s with
          reader := (s.reader.compile s.machine.store text final).recovered
          machine :=
            { s.machine with store := (s.reader.compile s.machine.store text final).store }
        } := by
  rw [Session.compile, Compiled.recovered]
  generalize s.reader.compile s.machine.store text final = read
  obtain ⟨result, reader, store⟩ := read
  cases result with
  | ok chunk => rfl
  | error fault => cases fault <;> rfl

/-- Compiling keeps a session closed, with the code that it gives out. -/
theorem Closed.compile (closed : s.Closed compiled) (text : List Char) (final : Bool)
    : ((s.compile text final).2.recover ((s.compile text final).1.mapError .read)).Closed
        ((s.compile text final).1.toOption.toList ++ compiled) := by
  obtain ⟨⟨store, reader, code⟩, grows⟩ :=
    Reader.closed_compile closed.state.store closed.reader text final
  rw [recover_compile]
  refine ⟨⟨store, fun v member => (closed.state.stack v member).grown grows.names⟩, reader, ?_,
    closed.idle, closed.room⟩
  intro chunk member
  rcases List.mem_append.mp member with given | old
  · cases result : (s.compile text final).1 with
    | error fault => rw [result] at given; cases given
    | ok finished =>
        rw [result] at given
        exact List.mem_singleton.mp given ▸ code finished result
  · exact (closed.code chunk old).grown grows.names

/-- Text that compiles leaves a closed session and gives closed code. -/
theorem Closed.compile_ok (closed : s.Closed compiled) {text : List Char} {final : Bool}
    {chunk : Chunk} (compiles : (s.compile text final).1 = .ok chunk)
    : (s.compile text final).2.Closed (chunk :: compiled) := by
  have after := closed.compile text final
  rw [compiles] at after
  exact after

/-- Text that leaves something open leaves a closed session. -/
theorem Closed.compile_incomplete (closed : s.Closed compiled) {text : List Char} {final : Bool}
    {what : Unfinished} (compiles : (s.compile text final).1 = .error (.incomplete what))
    : (s.compile text final).2.Closed compiled := by
  have after := closed.compile text final
  rw [compiles] at after
  exact after

/-- Running closed code keeps a session closed. -/
theorem Closed.run (closed : s.Closed compiled) {chunk : Chunk}
    (code : chunk.Closed s.machine.store.symbols) {fuel : Nat} {result : Except Failure Value}
    (ran : s.run fuel chunk = some (result, next))
    : next.Closed compiled := by
  rw [Session.run] at ran
  split at ran
  · cases ran; exact closed.note _
  · next listed lists =>
      obtain ⟨sameMachine, sameReader, _⟩ := listCode_ok lists
      obtain ⟨instructions, encodes, _⟩ := code
      have ends : ∀ stop machine, s.machine.runChunk fuel chunk = some ⟨stop, machine⟩
          → Session.Closed compiled { listed with machine } := by
        intro stop machine ended
        rw [State.runChunk_eq encodes] at ended
        obtain ⟨last, rfl, within⟩ :=
          executesWithin_of_run closed.room closed.state encodes.fits ended
        obtain ⟨lastClosed, symbols⟩ := within.closed closed.state
        have symbols : last.store.symbols = s.machine.store.symbols := symbols
        exact ⟨lastClosed, symbols ▸ sameReader ▸ closed.reader, symbols ▸ closed.code, rfl,
          closed.room⟩
      rw [sameMachine] at ran
      split at ran
      · cases ran
      · next stop machine ended => cases ran; exact ends _ _ ended
      · next machine ended => cases ran; exact (ends _ _ ended).congr (by simp) (by simp)

-----------------------------------------------------------------------------------------
-- Reachable sessions
-----------------------------------------------------------------------------------------

/-- All code that was given out or is held is closed. -/
theorem Closed.ofMember (closed : s.Closed compiled) {chunk : Chunk}
    (member : chunk ∈ compiled ++ s.machine.state.code)
    : chunk.Closed s.machine.store.symbols :=
  (List.mem_append.mp member).elim (closed.code chunk) (closed.state.code chunk)

/-- All code that was given out or is held may start on the machine. -/
theorem Closed.starts (closed : s.Closed compiled) {chunk : Chunk}
    (member : chunk ∈ compiled ++ s.machine.state.code)
    : Machine.Closed { s.machine with frames := [chunk.toList] } :=
  Machine.closed_start closed.state (closed.ofMember member)

/-- (s.Admits v) holds if all code in a value is well formed in the session. -/
def Admits (s : Session) (v : Value) : Prop :=
  ∀ chunk ∈ v.code, s.machine.store.Admits chunk.toList

/-- However a closed session goes on, it stays closed. -/
theorem kept_closed
    : Kept Admits fun given s => s.Closed given where
  compile closed text final := closed.compile text final
  run closed member ran := closed.run (closed.ofMember member) ran
  define closed admits name := closed.define name
    (Value.closed_iff.mpr fun chunk member => Store.admits_iff_closed.mp (admits chunk member))
  bindText closed name _ := closed.define name trivial
  resetReader closed := closed.resetReader
  withConsole closed _ :=
    ⟨⟨closed.state.store, closed.state.stack⟩, closed.reader, closed.code, closed.idle, closed.room⟩
  note closed text := closed.note text
  fewer closed :=
    ⟨closed.state, closed.reader, fun chunk member => closed.code chunk (by simp [member]),
      closed.idle, closed.room⟩

/-- (Reachable compiled s) holds if a host program can get a new session to s, where the compiled
code is what it was given back so far. The host may bind names to values in which all code, if there
is any, is well formed.
-/
def Reachable (compiled : List Chunk) (s : Session) : Prop :=
  ∃ settings console, Reaches Admits [] (Session.new settings console) compiled s

theorem Reachable.new (settings : Settings) (console : Console)
    : Reachable [] (Session.new settings console) :=
  ⟨settings, console, .refl⟩

theorem Reachable.compile (reachable : Reachable compiled s) (text : List Char) (final : Bool)
    : Reachable ((s.compile text final).1.toOption.toList ++ compiled)
        ((s.compile text final).2.recover ((s.compile text final).1.mapError .read)) := by
  obtain ⟨settings, console, reaches⟩ := reachable
  exact ⟨settings, console, reaches.compile text final⟩

/-- Every reachable session is closed. -/
theorem Reachable.closed (reachable : Reachable compiled s)
    : s.Closed compiled := by
  obtain ⟨settings, console, reaches⟩ := reachable
  exact kept_closed.reaches (closed_new settings console) reaches

end Session

end StackText
