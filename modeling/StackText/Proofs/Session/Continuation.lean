import StackText.Proofs.Machine.WellFormedCode
import StackText.Session

/-! How a session goes on. Evaluating, feeding lines, running files and dialogues are made of a few
operations: compiling, running code, binding a name, taking a line and writing to the log. What
these keep holds throughout a session.
-/

namespace StackText.Session

/-- The session with other text streams. -/
def withConsole (s : Session) (console : Console) : Session :=
  { s with machine := { s.machine with console } }

/-- The session that a host goes on with after a result. If an id did not fit then its opcode is
still in the code of the reader, and the host clears the reader.
-/
def recover {α : Type} (s : Session) : Except Failure α → Session
  | .error (.read (.code _)) => s.resetReader
  | _ => s

/-- (Reaches binds given s later t) holds if a host program can get a session from s to t, where it
binds names only to values that (binds) allows in the session at hand. The code that the host was
given is first (given), then (later). It may run at any time, and so may all code that the session
holds; text can come in any order and with any outcome, and the text streams may be others at any
time.
-/
inductive Reaches (binds : Session → Value → Prop) (given : List Chunk) (s : Session)
  : List Chunk → Session → Prop
  | refl
    : Reaches binds given s given s
  | compile {later t} (reaches : Reaches binds given s later t) (text : List Char) (final : Bool)
    : Reaches binds given s ((t.compile text final).1.toOption.toList ++ later)
        ((t.compile text final).2.recover ((t.compile text final).1.mapError .read))
  | run {later t fuel chunk result next} (reaches : Reaches binds given s later t)
    (member : chunk ∈ later ++ t.machine.state.code)
    (ran : t.run fuel chunk = some (result, next))
    : Reaches binds given s later next
  | eval {later t fuel text final result next} (reaches : Reaches binds given s later t)
    (ran : t.eval fuel text final = some (result, next))
    : Reaches binds given s later (next.recover result)
  | feed {later t fuel line result next} (reaches : Reaches binds given s later t)
    (ran : t.feed fuel line = some (result, next))
    : Reaches binds given s later (next.recover result)
  | runFile {later t fuel files path result next} (reaches : Reaches binds given s later t)
    (ran : t.runFile fuel files path = some (result, next))
    : Reaches binds given s later (next.recover result)
  | dialogue {later t fuel lines result next} (reaches : Reaches binds given s later t)
    (ran : t.dialogue fuel lines = some (result, next))
    : Reaches binds given s later next
  | loadBuffer {later t files path next} (reaches : Reaches binds given s later t)
    (loaded : t.loadBuffer files path = .ok next)
    : Reaches binds given s later next
  | define {later t v} (reaches : Reaches binds given s later t) (allowed : binds t v)
    (name : String)
    : Reaches binds given s later (t.define name v).2
  | resetReader {later t} (reaches : Reaches binds given s later t)
    : Reaches binds given s later t.resetReader
  | withConsole {later t} (reaches : Reaches binds given s later t) (console : Console)
    : Reaches binds given s later (t.withConsole console)
  | note {later t} (reaches : Reaches binds given s later t) (text : String)
    : Reaches binds given s later (t.note text)

/-- (Continues given s later t) holds if a session can go on from s to t without a host that binds
names to values of its own.
-/
abbrev Continues : List Chunk → Session → List Chunk → Session → Prop :=
  Reaches fun _ _ => False

-----------------------------------------------------------------------------------------
-- Failures
-----------------------------------------------------------------------------------------

theorem recover_of_ne {α : Type} {result : Except Failure α}
    (whole : ∀ fault, result ≠ .error (.read (.code fault))) (s : Session)
    : s.recover result = s := by
  fun_cases recover s result with
  | case1 fault => exact absurd rfl (whole fault)
  | case2 => rfl

@[simp] theorem machine_recover {α : Type} (s : Session) (result : Except Failure α)
    : (s.recover result).machine = s.machine := by
  fun_cases recover s result <;> rfl

@[simp] theorem resetReader_recover {α : Type} (s : Session) (result : Except Failure α)
    : (s.recover result).resetReader = s.resetReader := by
  fun_cases recover s result <;> rfl

/-- A run fails because the code cannot be listed or because the machine stops. -/
theorem failure_of_run {s next : Session} {fuel : Nat} {chunk : Chunk} {failure : Failure}
    (ran : s.run fuel chunk = some (.error failure, next))
    : (∃ fault, failure = .listing fault) ∨ ∃ why, failure = .stop why := by
  rw [Session.run] at ran
  split at ran
  · cases ran; exact .inl ⟨_, rfl⟩
  · split at ran
    · cases ran
    · cases ran; exact .inr ⟨_, rfl⟩
    · cases ran

theorem recover_of_run {s next : Session} {fuel : Nat} {chunk : Chunk}
    {result : Except Failure Value} (ran : s.run fuel chunk = some (result, next))
    : next.recover result = next := by
  cases result with
  | ok value => rfl
  | error failure => rcases failure_of_run ran with ⟨_, rfl⟩ | ⟨_, rfl⟩ <;> rfl

-----------------------------------------------------------------------------------------
-- What the operations keep
-----------------------------------------------------------------------------------------

/-- (Kept binds holds) is the case if what holds of a session, with the code that was given out,
does so after each of the operations that all others are made of, and also with less code given out.
-/
structure Kept (binds : Session → Value → Prop) (holds : List Chunk → Session → Prop) : Prop where
  compile
    : ∀ {given s},
        holds given s
        → ∀ text final,
            holds ((s.compile text final).1.toOption.toList ++ given)
              ((s.compile text final).2.recover ((s.compile text final).1.mapError .read))
  run
    : ∀ {given s fuel chunk result next},
        holds given s
        → chunk ∈ given ++ s.machine.state.code
        → s.run fuel chunk = some (result, next)
        → holds given next
  define : ∀ {given s v}, holds given s → binds s v → ∀ name, holds given (s.define name v).2
  bindText : ∀ {given s}, holds given s → ∀ name text, holds given (s.define name (.str text)).2
  resetReader : ∀ {given s}, holds given s → holds given s.resetReader
  withConsole : ∀ {given s}, holds given s → ∀ console, holds given (s.withConsole console)
  note : ∀ {given s}, holds given s → ∀ text, holds given (s.note text)
  fewer : ∀ {given s chunk}, holds (chunk :: given) s → holds given s

namespace Kept

variable {binds : Session → Value → Prop} {holds : List Chunk → Session → Prop}
variable {given : List Chunk} {s next : Session}

theorem traceText (kept : Kept binds holds) (before : holds given s) (text : List Char)
    : holds given (s.traceText text) := by
  rw [Session.traceText]
  split
  · exact kept.note before _
  · exact before

theorem closeDialogue (kept : Kept binds holds) (before : holds given s)
    : holds given s.closeDialogue := by
  rw [Session.closeDialogue]
  split
  · exact kept.resetReader (kept.note before _)
  · exact before

theorem nextLine (kept : Kept binds holds) (before : holds given s) (lines : Lines)
    : holds given (s.nextLine lines).2.2 := by
  cases lines with
  | console => exact kept.withConsole before _
  | text rest => exact before

/-- Compiled code runs at once and is then forgotten. -/
theorem compileRun (kept : Kept binds holds) (before : holds given s) {text : List Char}
    {final : Bool} {chunk : Chunk} {compiled : Session}
    (read : s.compile text final = (.ok chunk, compiled))
    {fuel : Nat} {result : Except Failure Value}
    (ran : compiled.run fuel chunk = some (result, next))
    : holds given next := by
  have after := kept.compile before text final
  rw [read] at after
  have member : chunk ∈ chunk :: given ++ compiled.machine.state.code := by simp
  exact kept.fewer (kept.run after member ran)

theorem compileError (kept : Kept binds holds) (before : holds given s) {text : List Char}
    {final : Bool} {fault : ReadFault} (read : s.compile text final = (.error fault, next))
    (α : Type)
    : holds given (next.recover (.error (.read fault) : Except Failure α)) := by
  have after := kept.compile before text final
  rw [read] at after
  cases fault <;> exact after

theorem eval (kept : Kept binds holds) (before : holds given s) {fuel : Nat} {text : List Char}
    {final : Bool} {result : Except Failure Value}
    (ran : s.eval fuel text final = some (result, next))
    : holds given (next.recover result) := by
  have traced := kept.traceText before text
  rw [Session.eval] at ran
  split at ran
  · next read => cases ran; exact kept.compileError traced read _
  · next read =>
      rw [recover_of_run ran]
      exact kept.compileRun traced read ran

theorem feed (kept : Kept binds holds) (before : holds given s) {fuel : Nat} {line : List Char}
    {result : Except Failure Bool} (ran : s.feed fuel line = some (result, next))
    : holds given (next.recover result) := by
  rw [Session.feed] at ran
  split at ran
  · next read => cases ran; exact kept.compileError before read Bool
  · next read => cases ran; exact kept.compileError before read Bool
  · next read =>
      split at ran
      · cases ran
      · next ends => cases ran; exact kept.compileRun before read ends
      · next failure _ ends =>
          cases ran
          have after := kept.compileRun before read ends
          rcases failure_of_run ends with ⟨_, rfl⟩ | ⟨_, rfl⟩ <;> exact after

theorem runFile (kept : Kept binds holds) (before : holds given s) {fuel : Nat} {files : Files}
    {path : Path} {result : Except Failure Value}
    (ran : s.runFile fuel files path = some (result, next))
    : holds given (next.recover result) := by
  rw [Session.runFile] at ran
  split at ran
  · exact kept.eval before ran
  · cases ran; exact before

theorem loadBuffer (kept : Kept binds holds) (before : holds given s) {files : Files} {path : Path}
    (loaded : s.loadBuffer files path = .ok next)
    : holds given next := by
  rw [Session.loadBuffer] at loaded
  split at loaded
  · cases loaded; exact kept.bindText before _ _
  · cases loaded

/-- A dialogue keeps what each of its lines keeps, by induction on its rounds. -/
theorem dialogueFor (kept : Kept binds holds) (before : holds given s) {fuel rounds : Nat}
    {lines : Lines} {result : Except Failure Unit}
    (ran : dialogueFor fuel rounds s lines = some (result, next))
    : holds given next := by
  induction rounds generalizing s lines with
  | zero => cases ran; exact before
  | succ rounds ih =>
      have taken : holds given (s.prompt.nextLine lines).2.2 :=
        kept.nextLine (kept.note before _) lines
      rw [Session.dialogueFor] at ran
      split at ran
      · next read =>
          rw [read] at taken
          split at ran
          · cases ran; exact taken
          · cases ran; exact kept.closeDialogue taken
      · next read => cases ran; rw [read] at taken; exact kept.closeDialogue taken
      · next read =>
          rw [read] at taken
          split at ran
          · cases ran
          · next fed => exact ih (kept.feed taken fed) ran
          · next fed => exact ih (kept.note (kept.feed taken fed) _) ran
          · next failure t fed =>
              have fed := kept.feed taken fed
              split at ran
              · have cleared := kept.resetReader fed
                rw [resetReader_recover] at cleared
                exact ih (kept.note cleared _) ran
              · next unreported =>
                  cases ran
                  rw [recover_of_ne] at fed
                  · exact fed
                  · rintro fault ⟨⟩
                    cases unreported

/-- What the operations keep holds however a session goes on, by induction on that. -/
theorem reaches (kept : Kept binds holds) (before : holds given s) {later : List Chunk}
    {t : Session}
    (reaches : Reaches binds given s later t)
    : holds later t := by
  induction reaches with
  | refl => exact before
  | compile _ text final ih => exact kept.compile ih text final
  | run _ member ran ih => exact kept.run ih member ran
  | eval _ ran ih => exact kept.eval ih ran
  | feed _ ran ih => exact kept.feed ih ran
  | runFile _ ran ih => exact kept.runFile ih ran
  | dialogue _ ran ih => exact kept.dialogueFor ih ran
  | loadBuffer _ loaded ih => exact kept.loadBuffer ih loaded
  | define _ allowed name ih => exact kept.define ih allowed name
  | resetReader _ ih => exact kept.resetReader ih
  | withConsole _ console ih => exact kept.withConsole ih console
  | note _ text ih => exact kept.note ih text

end Kept

end StackText.Session
