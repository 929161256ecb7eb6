import Mathlib
import StackText.Proofs.Machine.BigStep
import StackText.Proofs.Text.WordsAndLines

/-! What a program reads is the words of its input. Each word is taken with the one blank behind it,
so that reading a line goes on right there; and once there are no more words there is nothing to
read.
-/

namespace StackText

open Text

-----------------------------------------------------------------------------------------
-- Builtins in a row
-----------------------------------------------------------------------------------------

/-- (store.Applies code builtins) holds if each instruction of some code applies a slot that holds
a builtin, and these are the builtins in order.
-/
def Store.Applies (store : Store) : List Instruction → List Builtin → Prop :=
  List.Forall₂ fun i b => i.op = .apply ∧ store.get? i.id = some (.builtin b)

/-- (m.Performs builtins ending) holds if running code that applies builtins in order comes to an
ending, whatever slots they are applied through.
-/
def Machine.Performs (m : Machine) (builtins : List Builtin) (ending : Machine.Ending) : Prop :=
  ∀ chunk code,
    Chunk.instructions chunk = .ok code
    → m.store.Applies code builtins
    → ∃ fuel, m.runChunk fuel chunk = some ending

/-- Builtins carried out one after the other, up to the first that stops. -/
inductive State.Performs : List Builtin → State → Option Stop → State → Prop
  | done (s)
    : Performs [] s none s
  | next {b builtins s middle outcome last} (performed : s.perform b = .next middle)
    (later : Performs builtins middle outcome last)
    : Performs (b :: builtins) s outcome last
  | stop {b builtins s why last} (performed : s.perform b = .stop why last)
    : Performs (b :: builtins) s (some why) last

theorem State.effect_of_applies {s : State} {i : Instruction} {b : Builtin}
    (applies : i.op = .apply ∧ s.store.get? i.id = some (.builtin b))
    : s.effect i = s.perform b := by
  obtain ⟨op, id⟩ := i
  obtain ⟨rfl, found⟩ := applies
  simp [effect, found]

namespace State.Performs

variable {builtins more : List Builtin} {s middle last : State} {outcome : Option Stop}

theorem append (first : Performs builtins s none middle)
    (second : Performs more middle outcome last)
    : Performs (builtins ++ more) s outcome last := by
  induction builtins generalizing s with
  | nil => cases first; exact second
  | cons b builtins ih =>
      cases first with
      | next performed later => exact .next performed (ih later)

/-- The machine carries out builtins in a row, by induction on them. They leave the slots of the
store as they are, so that each instruction still finds its builtin.
-/
theorem ends (performs : Performs builtins s outcome last) {code : List Instruction}
    (applies : s.store.Applies code builtins) (fits : ∀ i ∈ code, i.id < idLimit) (limit : Nat)
    : (s.calling [code] limit).Ends ⟨outcome, last.calling [] limit⟩ := by
  induction performs generalizing code with
  | done s =>
      cases applies
      exact Machine.ends_of_running (s.step_return [] limit)
        (Machine.ends_of_finished (s.step_finished limit))
  | @next b builtins s middle outcome last performed _ ih =>
      cases applies with
      | @cons i _ code _ here behind =>
          have step := s.step_instruction (fits i List.mem_cons_self) code [] limit
          rw [effect_of_applies here, performed] at step
          obtain ⟨_, _, _, rfl⟩ := State.perform_next performed
          exact Machine.ends_of_running step
            (ih behind fun j member => fits j (List.mem_cons_of_mem _ member))
  | @stop b builtins s why last performed =>
      cases applies with
      | @cons i _ code _ here behind =>
          have step := s.step_instruction (fits i List.mem_cons_self) code [] limit
          rw [effect_of_applies here, performed] at step
          exact Machine.ends_of_stopped step

/-- Builtins carried out one after the other are what a run of code that applies them does. -/
theorem run {m : Machine} (performs : Performs builtins m.state outcome last)
    : m.Performs builtins ⟨outcome, last.calling [] m.depthLimit⟩ := by
  intro chunk code decodes applies
  have encodes := Chunk.encodes_of_instructions decodes
  obtain ⟨fuel, ran⟩ := performs.ends applies encodes.fits m.depthLimit
  exact ⟨fuel, (State.runChunk_eq encodes fuel m).trans ran⟩

end State.Performs

-----------------------------------------------------------------------------------------
-- One word, or one line
-----------------------------------------------------------------------------------------

namespace Console

/-- The first word of the input is read, and what is left behind it stays. -/
theorem readWord_of_words {console : Console} {front : List Char} (apart : endsBlank front = true)
    {word : Word} {later : List Word} (words : wordsBehind front console.input = word :: later)
    : console.readWord = (some word.letters, { console with input := word.left }) := by
  have stands := (mem_wordsBehind_iff.mp (words ▸ List.mem_cons_self)).1
  have visible : word.letters.isEmpty = false := by simpa using stands.nonempty
  simp only [readWord, (first_of_wordsBehind apart words).1, visible, Word.left]
  rfl

/-- Where there are no words, all input is taken and none is found. -/
theorem readWord_of_no_words {console : Console} {front : List Char}
    (apart : endsBlank front = true) (none : wordsBehind front console.input = [])
    : console.readWord = (.none, { console with input := [] }) := by
  simp [readWord, dropWhile_of_wordsBehind_nil apart none]

end Console

/-- The value that a word of the input becomes: the number it reads as, if there is one, else the
word as a string. A double is told from all others by its serial number.
-/
def Value.ofInput (serial : Nat) (letters : List Char) : Value :=
  match Numeral.read letters with
  | .ok (some (.int n)) => .int n
  | .ok (some (.float x)) => .float x (.serial serial)
  | .ok none | .error _ => .str (String.ofList letters)

theorem Builtin.wordValue_eq {letters : List Char} {number : Option Number}
    (reads : Numeral.read letters = .ok number) (serial : Nat)
    : wordValue serial letters = .ok (Value.ofInput serial letters) := by
  rw [wordValue, Value.ofInput, reads]
  cases number with
  | none => rfl
  | some n =>
      cases n with
      | int n => rfl
      | float x => rfl

namespace State

/-- The state when some words have been read: their values are on the stack, the last on top, and
the input goes on behind the last of them.
-/
def afterWords (s : State) (words : List Word) : State := {
  s with
  stack := (words.mapIdx fun i word => Value.ofInput (s.serial + i) word.letters).reverse ++ s.stack
  console := { s.console with input := words.getLast?.elim s.console.input Word.left }
  serial := s.serial + words.length
}

theorem afterWords_cons (s : State) (word : Word) (words : List Word)
    : s.afterWords (word :: words) = (s.afterWords [word]).afterWords words := by
  have serials : (fun (i : Nat) (w : Word) => Value.ofInput (s.serial + (i + 1)) w.letters)
      = fun i w => Value.ofInput (s.serial + 1 + i) w.letters := by
    funext i w
    rw [Nat.add_comm i, Nat.add_assoc]
  have count : s.serial + (words.length + 1) = s.serial + 1 + words.length := by omega
  simp [afterWords, elim_getLast?_cons, List.mapIdx_cons, serials, count]

theorem perform_read {s : State} {front : List Char} (apart : endsBlank front = true)
    {word : Word} {later : List Word} (words : wordsBehind front s.console.input = word :: later)
    {number : Option Number} (reads : Numeral.read word.letters = .ok number)
    : s.perform .read = .next (s.afterWords [word]) := by
  simp [perform, Builtin.arity, Builtin.run, Console.readWord_of_words apart words,
    Builtin.wordValue_eq reads, afterWords]

/-- Reading takes the words of the input one by one, by induction on them. -/
theorem performs_reads {s : State} {front : List Char} (apart : endsBlank front = true)
    {words later : List Word} (ahead : wordsBehind front s.console.input = words ++ later)
    (readable : ∀ word ∈ words, ∃ number, Numeral.read word.letters = .ok number)
    : Performs (List.replicate words.length .read) s none (s.afterWords words)
      ∧ ∃ front',
          endsBlank front' = true
          ∧ wordsBehind front' (s.afterWords words).console.input = later := by
  induction words generalizing s front with
  | nil =>
      have same : s.afterWords [] = s := rfl
      exact ⟨same ▸ .done s, front, apart, ahead⟩
  | cons word words ih =>
      obtain ⟨⟨number, reads⟩, readable'⟩ := List.forall_mem_cons.mp readable
      obtain ⟨_, behind, apart', left⟩ := first_of_wordsBehind apart ahead
      rw [afterWords_cons]
      obtain ⟨performs, rest⟩ := @ih (s.afterWords [word]) behind apart' left readable'
      exact ⟨.next (perform_read apart ahead reads) performs, rest⟩

theorem perform_read_of_no_words {s : State} {front : List Char} (apart : endsBlank front = true)
    (none : wordsBehind front s.console.input = [])
    : s.perform .read
      = .stop (.fault (.endOfInput .read)) {
          s with
          console := { s.console with input := [] }
        } := by
  simp [perform, Builtin.arity, Builtin.run, Console.readWord_of_no_words apart none]

theorem perform_readln_of_no_input {s : State} (none : s.console.input = [])
    : s.perform .readln
      = .stop (if s.console.interrupts then .interrupted else .fault (.endOfInput .readln)) s := by
  have same : { s.console with input := [] } = s.console := by rw [← none]
  have taken : s.console.readLine = (.none, s.console) := by
    rw [Console.readLine, none]
    exact congrArg (Prod.mk Option.none) same
  simp [perform, Builtin.arity, Builtin.run, taken]

/-- Reading a line pushes the first line of the input and leaves what follows it. -/
theorem perform_readln_of_firstLine {s : State} (some : s.console.input ≠ [])
    : ∃ line more,
        FirstLine s.console.input line more
        ∧ s.perform .readln
          = .next {
              s with
              stack := .str (String.ofList line) :: s.stack
              console := { s.console with input := more }
              serial := s.serial + 1
            } := by
  obtain ⟨first, nonempty⟩ := firstLine_nextLine some
  refine ⟨_, _, first, ?_⟩
  simp [perform, Builtin.arity, Builtin.run, Console.readLine, nonempty]

end State

-----------------------------------------------------------------------------------------
-- All words of the input
-----------------------------------------------------------------------------------------

namespace Machine

/-- The machine when some words of its input have been read and the calls have ended. -/
def afterWords (m : Machine) (words : List Word) : Machine :=
  (m.state.afterWords words).calling [] m.depthLimit

/-- A program reads its input as words, which are the maximal runs of visible characters in it, in
order. If none of them is a numeral that cannot be read, then reading as often as there are words
pushes their values in order, and reading once more is a fault that leaves the stack as it is. Once
some words have been read, the input goes on behind the one blank after the last of them, and
reading a line there is a fault if nothing is left, and else takes the first line of what is left.
Witness: behind a blank, or at the start, the text that is left has just the words that have not
been read yet.
-/
theorem reads_input_as_words {m : Machine}
    (readable
      : ∀ word ∈ words m.console.input, ∃ number, Numeral.read word.letters = .ok number)
    : (∀ word, word ∈ words m.console.input ↔ word.Stands m.console.input)
      ∧ ((words m.console.input).Pairwise fun earlier later =>
          earlier.before.length < later.before.length)
      ∧ m.Performs (.replicate ((words m.console.input).length + 1) .read)
          ⟨some (.fault (.endOfInput .read)), {
            m.afterWords (words m.console.input) with
            console := { m.console with input := [] }
          }⟩
      ∧ ∀ early late,
          words m.console.input = early ++ late
          → m.Performs (.replicate early.length .read) ⟨none, m.afterWords early⟩
            ∧ ((m.afterWords early).console.input = []
                → m.Performs (.replicate early.length .read ++ [.readln])
                    ⟨some (if m.console.interrupts then .interrupted
                      else .fault (.endOfInput .readln)), m.afterWords early⟩)
            ∧ ((m.afterWords early).console.input ≠ []
                → ∃ line more,
                    FirstLine (m.afterWords early).console.input line more
                    ∧ m.Performs (.replicate early.length .read ++ [.readln])
                        ⟨none, {
                          m.afterWords early with
                          stack := .str (String.ofList line) :: (m.afterWords early).stack
                          console := { m.console with input := more }
                          serial := m.serial + early.length + 1
                        }⟩) := by
  refine ⟨fun _ => mem_words_iff, words_inOrder _, ?_, ?_⟩
  · obtain ⟨performs, front, apart, none⟩ :=
      @State.performs_reads m.state [] rfl (words m.console.input) [] (by simp; rfl) readable
    have stops := State.perform_read_of_no_words apart none
    rw [List.replicate_succ']
    exact (performs.append (.stop stops)).run
  · intro early late split
    obtain ⟨performs, -⟩ := @State.performs_reads m.state [] rfl early late split
      fun word member => readable word (by simp [split, member])
    refine ⟨performs.run, fun nothing => ?_, fun something => ?_⟩
    · have stops := @State.perform_readln_of_no_input (m.state.afterWords early) nothing
      exact (performs.append (.stop stops)).run
    · obtain ⟨line, more, first, pushes⟩ :=
        @State.perform_readln_of_firstLine (m.state.afterWords early) something
      exact ⟨line, more, first, (performs.append (.next pushes (.done _))).run⟩

/-- A number behind blanks, then the rest of its line, which ends in a carriage return. -/
theorem reads_word_and_rest_of_line
    : let chunk : Chunk :=
        (Chunk.push {} ⟨.apply, Builtin.read.number⟩).push ⟨.apply, Builtin.readln.number⟩
      let m : Machine :=
        { store := .withBuiltins, console := { input := "\u3000 12 x\r\n-y".toList } }
      (∀ word ∈ words m.console.input, ∃ number, Numeral.read word.letters = .ok number)
      ∧ ∃ fuel ending,
          m.runChunk fuel chunk = some ending
          ∧ ending.stop = none
          ∧ ending.machine.stack = [.str "x", .int 12]
          ∧ ending.machine.console.input = "-y".toList := by
  intro chunk m
  have found : words m.console.input = [
      ⟨"\u3000 ".toList, "12".toList, " x\r\n-y".toList⟩,
      ⟨"\u3000 12 ".toList, "x".toList, "\r\n-y".toList⟩,
      ⟨"\u3000 12 x\r\n".toList, "-y".toList, []⟩
    ] := by
    decide
  have readable : ∀ word ∈ words m.console.input, ∃ number,
      Numeral.read word.letters = .ok number := by
    rw [found]
    simpa using ⟨⟨some (.int 12), rfl⟩, ⟨none, rfl⟩, ⟨none, rfl⟩⟩
  obtain ⟨_, _, _, reads⟩ := reads_input_as_words readable
  obtain ⟨_, _, continues⟩ := reads [_] _ found
  obtain ⟨line, more, first, performs⟩ := continues (by decide)
  obtain ⟨rfl, rfl⟩ := first.eq_nextLine
  have code : chunk.instructions = .ok [⟨.apply, 17⟩, ⟨.apply, 18⟩] := rfl
  have read : m.store.get? 17 = some (.builtin .read) := by cbv
  have readln : m.store.get? 18 = some (.builtin .readln) := by cbv
  obtain ⟨fuel, ran⟩ := performs chunk _ code (.cons ⟨rfl, read⟩ (.cons ⟨rfl, readln⟩ .nil))
  exact ⟨readable, fuel, _, ran, rfl, rfl, rfl⟩

end Machine

end StackText
