import StackText.Number.Literal
import StackText.Reader.Fence

/-! Tokens of a source text with their places. -/

namespace StackText

/-- A token. A string that the text ends in the middle of is the last token, with all the text
from its first quote on.
-/
inductive Token where
  | openBlock
  | closeBlock
  | string (text : String)
  | word (text : List Char)
  | unterminated (rest : List Char)
  deriving DecidableEq, Repr

/-- A token and the offsets at which it starts and stops. -/
structure Lexeme where
  token : Token
  start : Nat
  stop : Nat
  deriving DecidableEq, Repr

namespace Token

/-- Passes blanks and comments. The flag says that the text starts inside a comment; the result
is the offset of what follows and the text from there.
-/
def skipGap (comment : Bool) (position : Nat) : List Char → Nat × List Char
  | [] => (position, [])
  | c :: rest =>
      if comment then skipGap (c ≠ '\n') (position + 1) rest
      else if Text.isBlank c then skipGap false (position + 1) rest
      else if c = '#' then skipGap true (position + 1) rest
      else (position, c :: rest)

/-- The word at the start of a text: all up to the next special character. -/
def leadingWord (text : List Char) : List Char := text.takeWhile (!isSpecial ·)

/-- The token that starts with a given character, and the text behind it. -/
def read (position : Nat) (c : Char) (rest : List Char) : Lexeme × List Char :=
  if c = '(' then (⟨.openBlock, position, position + 1⟩, rest)
  else if c = ')' then (⟨.closeBlock, position, position + 1⟩, rest)
  else if isQuote c then
    match Fenced.read? (c :: rest) with
    | some f => (⟨.string (String.ofList f.text), position, position + f.size⟩, f.rest)
    | none => (⟨.unterminated (c :: rest), position, position + rest.length + 1⟩, [])
  else
    let word := leadingWord (c :: rest)
    (⟨.word word, position, position + word.length⟩, (c :: rest).drop word.length)

/-- Passing a gap does not lengthen the text. -/
theorem length_skipGap (comment : Bool) (position : Nat) (text : List Char)
    : (skipGap comment position text).2.length ≤ text.length := by
  fun_induction skipGap comment position text <;> simp_all <;> omega

/-- The character behind a gap is neither blank nor the start of a comment. -/
theorem head_skipGap {comment : Bool} {position start : Nat} {text rest : List Char} {c : Char}
    (gap : skipGap comment position text = (start, c :: rest))
    : Text.isBlank c = false ∧ c ≠ '#' := by
  fun_induction skipGap comment position text with
  | case1 => cases gap
  | case2 _ _ _ ih => exact ih gap
  | case3 _ _ _ _ _ _ ih => exact ih gap
  | case4 _ _ _ _ _ ih => exact ih gap
  | case5 _ _ _ _ _ visible code => cases gap; exact ⟨by simpa using visible, code⟩

theorem leadingWord_cons {c : Char} (plain : isSpecial c = false) (rest : List Char)
    : leadingWord (c :: rest) = c :: leadingWord rest := by
  simp [leadingWord, plain]

/-- A token takes at least its first character: a character that is not special starts a word, and
one that is special starts another token or a gap.
-/
theorem length_read {c : Char} (visible : Text.isBlank c = false) (code : c ≠ '#') (position : Nat)
    (rest : List Char)
    : (read position c rest).2.length ≤ rest.length := by
  unfold read
  split
  · simp
  split
  · simp
  split
  · split
    · next f h => simpa using Nat.le_of_lt_succ (Fenced.length_rest_read? h)
    · simp
  · next opening closing quote =>
      have plain := isSpecial_of_other (by simp [visible]) code quote opening closing
      simp [leadingWord_cons plain]

/-- The tokens of a text from an offset on, after those found before it in reverse. -/
def scanFrom (done : List Lexeme) (position : Nat) (text : List Char) : List Lexeme :=
  match _gap : skipGap false position text with
  | (_, []) => done.reverse
  | (start, c :: rest) =>
      let next := read start c rest
      scanFrom (next.1 :: done) next.1.stop next.2
termination_by text.length
decreasing_by
  have shorter := length_skipGap false position text
  obtain ⟨visible, code⟩ := head_skipGap _gap
  have token := length_read visible code start rest
  simp only [_gap, List.length_cons] at shorter
  omega

/-- The tokens of a text. -/
def scan (text : List Char) : List Lexeme := scanFrom [] 0 text

end Token

/-- What a word means. -/
inductive Term where
  /-- Pop into a variable. -/
  | assign (name : String)
  /-- Push a variable. -/
  | load (name : String)
  /-- Push a number. -/
  | number (n : Number)
  /-- Apply the value of a variable. -/
  | call (name : String)

/-- The meaning of a word: a sigil with an equals sign assigns, a sigil alone loads, what reads as
a number is one, and all else is a call.
-/
def Term.ofWord : List Char → Except Numeral.Fault Term
  | '$' :: '=' :: name => .ok (.assign (String.ofList name))
  | '$' :: name => .ok (.load (String.ofList name))
  | word =>
      match Numeral.read word with
      | .error fault => .error fault
      | .ok (some n) => .ok (.number n)
      | .ok none => .ok (.call (String.ofList word))

end StackText
