import StackText.Text.Blank

/-! Fenced strings. A string opens with a run of one quote character and closes with a run of
the same length that stands before a token boundary or a sigil. Every other run is content;
between single quote characters a run stands for half as many, rounded up, so that doubling
escapes a quote.
-/

namespace StackText

/-- (isQuote c) holds of the three characters that open strings. -/
def isQuote (c : Char) : Bool := c = '\x27' || c = '\x22' || c = '\x60'

/-- (isSpecial c) holds of the characters that end a word. -/
def isSpecial (c : Char) : Bool :=
  c = '(' || c = ')' || c = '#' || isQuote c || Text.isBlank c

/-- A character that starts neither a gap nor a string nor a bracket is not special. -/
theorem isSpecial_of_other {c : Char} (visible : ¬Text.isBlank c) (code : c ≠ '#')
    (quote : ¬isQuote c) (opening : c ≠ '(') (closing : c ≠ ')')
    : isSpecial c = false := by
  simp [isSpecial, visible, code, quote, opening, closing]

/-- The character that begins the words which load or assign a variable. -/
def sigil : Char := '$'

/-- A string literal: its text, the number of characters it takes up with both fences, and what
follows it.
-/
structure Fenced where
  text : List Char
  size : Nat
  rest : List Char
  deriving DecidableEq, Repr

namespace Fenced

/-- (closesBefore rest) holds if a fence may close right before (rest). -/
def closesBefore : List Char → Bool
  | [] => true
  | c :: _ => isSpecial c || c = sigil

/-- How many quotes a run inside a string stands for. -/
def foldRun (fence run : Nat) : Nat :=
  if fence = 1 then (run + 1) / 2 else run

/-- Reads on behind an opening fence: (run) quotes have just been passed, (text) is the content
before them in reverse and (size) counts the characters passed.
-/
def readBody (quote : Char) (fence run : Nat) (text : List Char) (size : Nat)
    : List Char → Option Fenced
  | [] => if run = fence then some ⟨text.reverse, size, []⟩ else none
  | c :: rest =>
      if c = quote then readBody quote fence (run + 1) text (size + 1) rest
      else if run = fence && closesBefore (c :: rest) then some ⟨text.reverse, size, c :: rest⟩
      else
        let quotes := List.replicate (foldRun fence run) quote
        readBody quote fence 0 (c :: quotes ++ text) (size + 1) rest

/-- The length of the run of one character at the start of a text. -/
def openingRun : List Char → Nat
  | [] => 0
  | quote :: rest => (rest.takeWhile (· = quote)).length + 1

/-- Reads the string that opens with the first character of a text; none if the text ends before
the string does.
-/
def read? : List Char → Option Fenced
  | [] => none
  | quote :: rest =>
      let fence := openingRun (quote :: rest)
      readBody quote fence 0 [] fence (rest.drop (fence - 1))

/-- What follows a string is no longer than what followed its opening fence. -/
theorem length_rest_readBody {quote : Char} {fence run size : Nat} {text source : List Char}
    {f : Fenced} (h : readBody quote fence run text size source = some f)
    : f.rest.length ≤ source.length := by
  fun_induction readBody quote fence run text size source with
  | case1 => cases h; simp
  | case2 => cases h
  | case3 _ _ _ _ ih => have := ih h; simp only [List.length_cons]; omega
  | case4 => cases h; simp
  | case5 _ _ _ _ _ _ _ _ ih => have := ih h; simp only [List.length_cons]; omega

/-- What follows a string is shorter than the text it was read from. -/
theorem length_rest_read? {source : List Char} {f : Fenced} (h : read? source = some f)
    : f.rest.length < source.length := by
  cases source with
  | nil => simp [read?] at h
  | cons quote rest =>
      have := length_rest_readBody h
      simp only [List.length_drop, List.length_cons] at *
      omega

end Fenced

end StackText
