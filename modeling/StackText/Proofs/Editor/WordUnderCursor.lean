import StackText.Editor.Basic
import StackText.Proofs.Editor.IndexedPlaces

/-! The word under the cursor. The index counts lines at line feeds, and an editor cuts its lines at
every line boundary of Unicode. As long as no other boundary is before a word, the word under the
cursor is the token of the index, and a definition is described at its own position; behind one, the
line that is looked at has ended before the word.
-/

namespace StackText

open Text

-----------------------------------------------------------------------------------------
-- Screen lines
-----------------------------------------------------------------------------------------

namespace Text

/-- The number of line breaks on the screen that hold no line feed. -/
def bareBreaks : List Char → Nat
  | [] => 0
  | '\r' :: '\n' :: rest => bareBreaks rest
  | c :: rest => (if isLineBreak c ∧ c ≠ '\n' then 1 else 0) + bareBreaks rest

/-- The screen lines that end in a text, the last first, and the line that is open behind it, read
backwards; (done) and (line) are those before the text.
-/
def passScreen (done : List (List Char)) (line : List Char)
    : List Char → List (List Char) × List Char
  | [] => (done, line)
  | '\r' :: '\n' :: rest => passScreen (('\n' :: '\r' :: line).reverse :: done) [] rest
  | c :: rest =>
      if isLineBreak c then passScreen ((c :: line).reverse :: done) [] rest
      else passScreen done (c :: line) rest

/-- The first screen line of a text. -/
def screenLine : List Char → List Char
  | [] => []
  | '\r' :: '\n' :: _ => ['\r', '\n']
  | c :: rest => if isLineBreak c then [c] else c :: screenLine rest

/-- The lines that are done stand in front of all others. -/
theorem go_append_done (early done : List (List Char)) (line text : List Char)
    : screenLines.go (done ++ early) line text
      = early.reverse ++ screenLines.go done line text := by
  fun_induction screenLines.go done line text with
  | case1 done line => simp [screenLines.go]; split <;> simp
  | case2 done line rest ih => exact ih
  | case3 done line c rest other breaks ih =>
      rw [screenLines.go, if_pos breaks]
      · exact ih
      · exact other
  | case4 done line c rest other inside ih =>
      rw [screenLines.go, if_neg inside]
      · exact ih
      · exact other

/-- Cutting a text into screen lines goes on behind a front of it, unless that would part a carriage
return from its line feed.
-/
theorem go_append (done : List (List Char)) (line front : List Char) {rest : List Char}
    (apart : rest.head? ≠ some '\n')
    : screenLines.go done line (front ++ rest)
      = screenLines.go (passScreen done line front).1 (passScreen done line front).2 rest := by
  have single {c : Char} {front : List Char}
      (other : ∀ more, c = '\r' → front = '\n' :: more → False)
      : ∀ more, c = '\r' → front ++ rest = '\n' :: more → False := by
    intro more carriage feed
    cases front with
    | nil => exact apart (by simp [show rest = _ from feed])
    | cons d front => exact other front carriage (by simpa using (List.cons.inj feed).1)
  fun_induction passScreen done line front with
  | case1 done line => rfl
  | case2 done line front ih => exact ih
  | case3 done line c front other breaks ih =>
      rw [List.cons_append, screenLines.go, if_pos breaks]
      · exact ih
      · exact single other
  | case4 done line c front other inside ih =>
      rw [List.cons_append, screenLines.go, if_neg inside]
      · exact ih
      · exact single other

theorem screenLines_append (front : List Char) {rest : List Char}
    (apart : rest.head? ≠ some '\n')
    : screenLines (front ++ rest)
      = (passScreen [] [] front).1.reverse
        ++ screenLines.go [] (passScreen [] [] front).2 rest := by
  rw [screenLines, go_append _ _ _ apart]
  exact go_append_done (passScreen [] [] front).1 [] _ rest

theorem length_passScreen (done : List (List Char)) (line text : List Char)
    : (passScreen done line text).1.length
      = done.length + text.count '\n' + bareBreaks text := by
  fun_induction passScreen done line text with
  | case1 done line => simp [bareBreaks]
  | case2 done line rest ih =>
      rw [ih, bareBreaks]
      simp
      omega
  | case3 done line c rest other breaks ih =>
      rw [ih, bareBreaks, List.count_cons, List.length_cons]
      · by_cases feed : c = '\n' <;> simp [feed, breaks] <;> omega
      · exact other
  | case4 done line c rest other inside ih =>
      have plain : c ≠ '\n' := by rintro rfl; exact inside (by decide)
      rw [ih, bareBreaks]
      · simp [plain, inside]
      · exact other

/-- Where all breaks hold line feeds, the open line is what is behind the last line feed. -/
theorem reverse_passScreen {done : List (List Char)} {line text : List Char}
    (even : bareBreaks text = 0) (unbroken : '\n' ∉ line)
    : (passScreen done line text).2.reverse = lastLine (line.reverse ++ text) := by
  fun_induction passScreen done line text with
  | case1 done line =>
      rw [List.append_nil, ← List.nil_append line.reverse,
        lastLine_append_of_not_mem (by simpa using unbroken)]
      rfl
  | case2 done line rest ih =>
      rw [ih even (by simp), List.append_cons, lastLine_append_lineFeed]
      rfl
  | case3 done line c rest other breaks ih =>
      rw [bareBreaks.eq_3 _ _ other] at even
      obtain rfl : c = '\n' := by
        by_contra bare
        simp [breaks, bare] at even
      rw [ih (by simpa using even) (by simp), lastLine_append_lineFeed]
      rfl
  | case4 done line c rest other inside ih =>
      rw [bareBreaks.eq_3 _ _ other] at even
      have plain : c ≠ '\n' := by rintro rfl; exact inside (by decide)
      rw [ih (by simpa [inside] using even) (by simp [Ne.symm plain, unbroken])]
      simp

/-- The first screen line behind an open line goes on with it. -/
theorem getElem?_go_zero (line : List Char) {text : List Char} (nonempty : text ≠ [])
    : (screenLines.go [] line text)[0]? = some (line.reverse ++ screenLine text) := by
  fun_induction screenLine text generalizing line with
  | case1 => exact absurd rfl nonempty
  | case2 rest =>
      have cut := go_append_done [('\n' :: '\r' :: line).reverse] [] [] rest
      rw [List.nil_append] at cut
      rw [screenLines.go, cut]
      simp
  | case3 c rest other breaks =>
      have cut := go_append_done [(c :: line).reverse] [] [] rest
      rw [List.nil_append] at cut
      rw [screenLines.go.eq_3 _ _ _ _ other, if_pos breaks, cut]
      simp
  | case4 c rest other inside ih =>
      rw [screenLines.go.eq_3 _ _ _ _ other, if_neg inside]
      cases rest with
      | nil => simp [screenLines.go, screenLine]
      | cons d rest => simpa using ih (c :: line) (by simp)

theorem isSpecial_of_isLineBreak {c : Char} (breaks : isLineBreak c = true)
    : isSpecial c = true := by
  refine isSpecial_of_isBlank ?_
  simp only [isLineBreak, isBlank, Bool.or_eq_true, Bool.and_eq_true, decide_eq_true_eq,
    beq_iff_eq] at breaks ⊢
  omega

theorem head?_ne_lineFeed {letters : List Char} (plain : ∀ c ∈ letters, isSpecial c = false)
    (nonempty : letters ≠ []) (rest : List Char)
    : (letters ++ rest).head? ≠ some '\n' := by
  intro feed
  rw [List.head?_append_of_ne_nil _ nonempty] at feed
  exact lineFeed_not_mem_of_plain plain (List.mem_of_head? feed)

/-- A word stands on one screen line. -/
theorem screenLine_append_of_plain {letters : List Char}
    (plain : ∀ c ∈ letters, isSpecial c = false) (rest : List Char)
    : screenLine (letters ++ rest) = letters ++ screenLine rest := by
  induction letters with
  | nil => rfl
  | cons c letters ih =>
      have inside : ¬isLineBreak c = true := by
        intro breaks
        simpa [plain c (by simp)] using isSpecial_of_isLineBreak breaks
      have other : ∀ more, c = '\r' → letters ++ rest = '\n' :: more → False := by
        rintro _ rfl _
        exact inside (by decide)
      rw [List.cons_append, screenLine.eq_3 _ _ other, if_neg inside,
        ih (List.forall_mem_cons.mp plain).2, List.cons_append]

theorem head?_screenLine (text : List Char)
    : (screenLine text).head? = text.head? := by
  fun_cases screenLine text with
  | case1 | case2 | case3 | case4 => rfl

/-- The screen line that a front runs into, if all breaks of the front hold line feeds. -/
theorem getElem?_screenLines {front rest : List Char} (even : bareBreaks front = 0)
    (apart : rest.head? ≠ some '\n') (nonempty : rest ≠ [])
    : (screenLines (front ++ rest))[front.count '\n']?
      = some (lastLine front ++ screenLine rest) := by
  have before : (passScreen [] [] front).1.reverse.length = front.count '\n' := by
    simp [length_passScreen, even]
  rw [screenLines_append front apart, List.getElem?_append_right (Nat.le_of_eq before), before,
    Nat.sub_self, getElem?_go_zero _ nonempty, reverse_passScreen even (by simp)]
  rfl

/-- Behind a bare break the line with the number of the line feeds has ended before. -/
theorem getElem?_screenLines_of_bare {front rest : List Char} (bare : bareBreaks front ≠ 0)
    (apart : rest.head? ≠ some '\n')
    : (screenLines (front ++ rest))[front.count '\n']?
      = (screenLines front)[front.count '\n']? := by
  have before : front.count '\n' < (passScreen [] [] front).1.reverse.length := by
    simp [length_passScreen]
    omega
  have alone := @screenLines_append front [] (by simp)
  rw [List.append_nil] at alone
  rw [screenLines_append front apart, alone, List.getElem?_append_left before,
    List.getElem?_append_left before]

end Text

-----------------------------------------------------------------------------------------
-- The word around a column
-----------------------------------------------------------------------------------------

namespace Editor

theorem takeWhile_plain {part after : List Char} (plain : ∀ c ∈ part, isSpecial c = false)
    (starts : StartsSpecial after)
    : (part ++ after).takeWhile (!isSpecial ·) = part := by
  rw [List.takeWhile_append_of_pos (by simpa using plain)]
  cases after with
  | nil => simp
  | cons c after => simp [starts c rfl]

theorem wordEnd_append {before part : List Char} (ends : EndsSpecial before)
    (plain : ∀ c ∈ part, isSpecial c = false)
    : wordEnd (before ++ part) = part := by
  rw [wordEnd, List.reverse_append, takeWhile_plain, List.reverse_reverse]
  · simpa using plain
  · rwa [StartsSpecial, List.head?_reverse]

/-- The word around a column inside a word, or at one of its ends, is that word. -/
theorem wordAround_append {before left right after : List Char} (ends : EndsSpecial before)
    (plain : ∀ c ∈ left ++ right, isSpecial c = false) (starts : StartsSpecial after)
    : wordAround (before ++ (left ++ right ++ after)) (before.length + left.length)
      = left ++ right := by
  have line : before ++ (left ++ right ++ after) = before ++ left ++ (right ++ after) := by simp
  obtain ⟨plainLeft, plainRight⟩ := List.forall_mem_append.mp plain
  rw [wordAround, line, ← List.length_append, List.take_left, List.drop_left,
    wordEnd_append ends plainLeft, takeWhile_plain plainRight starts]

theorem wordAt?_eq_some {text line word : List Char} {p : Position}
    (found : (screenLines text)[p.line]? = some line) (around : wordAround line p.column = word)
    (nonempty : word ≠ [])
    : wordAt? text p = some word := by
  simp only [wordAt?, found, around]

/-- A word that no bare break precedes is found at every column from its start to its end. -/
theorem wordAt?_word {front left right rest : List Char} (even : bareBreaks front = 0)
    (ends : EndsSpecial front) (plain : ∀ c ∈ left ++ right, isSpecial c = false)
    (nonempty : left ++ right ≠ []) (starts : StartsSpecial rest)
    : wordAt? (front ++ (left ++ right ++ rest)) (.behind (front ++ left))
      = some (left ++ right) := by
  have found := getElem?_screenLines even (head?_ne_lineFeed plain nonempty rest) (by simp_all)
  rw [screenLine_append_of_plain plain] at found
  have around := wordAround_append (endsSpecial_lastLine ends) plain
    (show StartsSpecial (screenLine rest) by rwa [StartsSpecial, head?_screenLine])
  rw [Position.behind_append_of_not_mem
    (lineFeed_not_mem_of_plain (List.forall_mem_append.mp plain).1)]
  exact wordAt?_eq_some found around nonempty

/-- Behind a bare break the line that is looked at has ended before the word. -/
theorem wordAt?_of_bare {front rest : List Char} (bare : bareBreaks front ≠ 0)
    (apart : rest.head? ≠ some '\n') {p : Position} (line : p.line = front.count '\n')
    : wordAt? (front ++ rest) p = wordAt? front p := by
  rw [wordAt?, wordAt?, line, getElem?_screenLines_of_bare bare apart]

end Editor

-----------------------------------------------------------------------------------------
-- Definitions under the cursor
-----------------------------------------------------------------------------------------

/-- What is told of a definition. Lines and columns are counted from one. -/
def Definition.description (d : Definition) : String :=
  s!"{d.name} — {d.kind} (defined at {d.position.line + 1}:{d.position.column + 1})"

namespace Editor

/-- What is told of a definition at the word that makes it. -/
theorem hover_definition {editor : Editor} {address : String} {text : List Char} {index : Index}
    {p : Position} {d : Definition} (opened : editor.document? address = some ⟨text, index⟩)
    (word : wordAt? text p = some d.letters) (defined : index.definition? d.name = some d)
    : editor.hover address p = some d.description := by
  have name : String.ofList (wordName d.letters) = d.name := String.ofList_toList
  have other : wordName d.letters ≠ d.letters := by
    intro same
    have length := congrArg List.length same
    simp only [Definition.letters, wordName, List.length_cons] at length
    omega
  simp only [hover, opened, word, name, if_neg other, defined, Option.bind_eq_bind,
    Option.bind_some]
  rfl

/-- The word at every place of a word token. -/
theorem wordAt?_token {text : List Char} {lexeme : Lexeme} (member : lexeme ∈ Token.scan text)
    {letters : List Char} (word : lexeme.token = .word letters) {offset : Nat}
    (reached : lexeme.start ≤ offset) (inside : offset ≤ lexeme.stop)
    : wordAt? text (positionAt text offset)
      = if bareBreaks (text.take lexeme.start) = 0 then some letters
        else wordAt? (text.take lexeme.start) (positionAt text offset) := by
  obtain ⟨front, span, rest, whole, start, stop, _, fills⟩ := lexeme.exists_fills member
  rw [word] at fills
  obtain ⟨rfl, nonempty, plain, ends, starts⟩ := fills
  obtain ⟨left, right, rfl, length⟩ : ∃ left right, span = left ++ right
      ∧ offset = (front ++ left).length := by
    refine ⟨span.take (offset - front.length), span.drop (offset - front.length), by simp, ?_⟩
    simp only [List.length_append] at stop
    simp only [List.length_append, List.length_take]
    omega
  have passed : text.take lexeme.start = front := by rw [whole, start, List.take_left]
  have position : positionAt text offset = .behind (front ++ left) := by
    rw [positionAt_eq_behind, length, whole, List.append_assoc left, ← List.append_assoc front,
      List.take_left]
  rw [passed, position]
  split
  · next even => rw [whole, wordAt?_word even ends plain nonempty starts]
  · next bare =>
      have line := lineFeed_not_mem_of_plain (List.forall_mem_append.mp plain).1
      rw [whole, wordAt?_of_bare bare (head?_ne_lineFeed plain nonempty rest)]
      rw [Position.behind_append_of_not_mem line]
      rfl

/-- The word under the cursor. From the start of a word token to its end the cursor is on that
word if every line break before the word holds a line feed. Behind another break the line that is
looked at has ended before the word, and what is found there is what would be found without the word
and all that follows. So a definition is described at its own position, and at every other place of
the word that makes it, unless such a break is before it. Witness: the screen lines that end before
the word are as many as the line feeds there and the bare breaks together.
-/
theorem word_under_cursor_is_token (text : List Char)
    : (∀ lexeme ∈ Token.scan text, ∀ letters, lexeme.token = .word letters →
        ∀ offset, lexeme.start ≤ offset → offset ≤ lexeme.stop →
          wordAt? text (positionAt text offset)
            = if bareBreaks (text.take lexeme.start) = 0 then some letters
              else wordAt? (text.take lexeme.start) (positionAt text offset))
      ∧ ∀ (editor : Editor) address index,
          editor.document? address = some ⟨text, index⟩ → Index.ofText text = .ok index →
            ∀ d ∈ index.definitions,
              ∃ lexeme ∈ Token.scan text,
                lexeme.token = .word d.letters
                ∧ lexeme.position text = d.position
                ∧ (bareBreaks (text.take lexeme.start) = 0 →
                    ∀ offset, lexeme.start ≤ offset → offset ≤ lexeme.stop →
                      editor.hover address (positionAt text offset) = some d.description) := by
  refine ⟨fun lexeme member letters word offset => wordAt?_token member word, ?_⟩
  intro editor address index opened indexed d member
  have places := Index.places_of_ofText indexed
  obtain ⟨early, lexeme, late, listed, noted, _⟩ := places.definitions d member
  obtain ⟨token, position⟩ := Prod.mk.inj noted
  have scanned : lexeme ∈ Token.scan text := by simp [listed]
  refine ⟨lexeme, scanned, token, position, fun even offset reached inside => ?_⟩
  refine hover_definition opened ?_ (places.definition?_eq member)
  rw [wordAt?_token scanned token reached inside, if_pos even]

/-- A definition behind a carriage return with its line feed and a string over two lines, seen from
the end of its word.
-/
theorem word_under_cursor_behind_carriage_return
    : let text := "1\r\n'a\nb' $=f".toList
      wordAt? text ⟨2, 6⟩ = some "$=f".toList
      ∧ ∃ index,
          Index.ofText text = .ok index
          ∧ hover ⟨[("a", ⟨text, index⟩)]⟩ "a" ⟨2, 6⟩ = some "f — var (defined at 3:4)" := by
  have facts : let text := "1\r\n'a\nb' $=f".toList
      Token.scan text
        = [⟨.word ['1'], 0, 1⟩, ⟨.string "a\nb", 3, 8⟩, ⟨.word "$=f".toList, 9, 12⟩]
      ∧ bareBreaks (text.take 9) = 0
      ∧ positionAt text 12 = ⟨2, 6⟩
      ∧ (Index.ofText text).toOption.map (fun index => index.definitions.toList)
        = some [⟨"f", false, ⟨2, 3⟩⟩] := by
    refine ⟨?_, ?_, ?_, ?_⟩ <;> cbv
  intro text
  obtain ⟨scanned, even, position, defined⟩ := facts
  obtain ⟨words, described⟩ := word_under_cursor_is_token text
  constructor
  · have word := words ⟨.word "$=f".toList, 9, 12⟩ (by rw [scanned]; simp) _ rfl 12 (by decide)
      (by decide)
    rwa [position, if_pos even] at word
  · cases indexed : Index.ofText text with
    | error fault => rw [indexed] at defined; cases defined
    | ok index =>
        rw [indexed] at defined
        obtain ⟨lexeme, member, token, _, told⟩ := described ⟨[("a", ⟨text, index⟩)]⟩ "a" index rfl
          indexed ⟨"f", false, ⟨2, 3⟩⟩
          (Array.mem_toList_iff.mp (by simp [Option.some.inj defined]))
        obtain rfl : lexeme = ⟨.word "$=f".toList, 9, 12⟩ := by
          rw [scanned] at member
          rcases List.mem_cons.mp member with rfl | member
          · cases token
          rcases List.mem_cons.mp member with rfl | member
          · cases token
          · exact List.mem_singleton.mp member
        have hovered := told even 12 (by decide) (by decide)
        rw [position] at hovered
        exact ⟨index, rfl, hovered⟩

/-- Behind a form feed a definition is not described at its own position. -/
theorem hover_misses_behind_form_feed
    : let text := "1\x0c$=x".toList
      ∃ index,
        Index.ofText text = .ok index
        ∧ ⟨"x", false, ⟨0, 2⟩⟩ ∈ index.definitions
        ∧ hover ⟨[("a", ⟨text, index⟩)]⟩ "a" ⟨0, 2⟩ = none := by
  have facts : let text := "1\x0c$=x".toList
      wordAt? text ⟨0, 2⟩ = none
      ∧ (Index.ofText text).toOption.map (fun index => index.definitions.toList)
        = some [⟨"x", false, ⟨0, 2⟩⟩] := by
    refine ⟨?_, ?_⟩ <;> cbv
  intro text
  obtain ⟨missed, defined⟩ := facts
  cases indexed : Index.ofText text with
  | error fault => rw [indexed] at defined; cases defined
  | ok index =>
      rw [indexed] at defined
      refine ⟨index, rfl, Array.mem_toList_iff.mp (by simp [Option.some.inj defined]), ?_⟩
      have opened : document? ⟨[("a", ⟨text, index⟩)]⟩ "a" = some ⟨text, index⟩ := rfl
      simp only [hover, opened, Option.bind_eq_bind, Option.bind_some]
      rw [missed]
      rfl

end Editor

end StackText
