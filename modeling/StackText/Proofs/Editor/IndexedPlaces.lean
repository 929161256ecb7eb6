import StackText.Proofs.Editor.IndexedTokens
import StackText.Proofs.Editor.Positions
import StackText.Proofs.Reader.TokenPlaces

/-! The positions in the index of a text. Each is the position of the token it was recorded for, so
that on its line, at its column, that token is written.
-/

namespace StackText

open Text

-----------------------------------------------------------------------------------------
-- Words and what they mean
-----------------------------------------------------------------------------------------

/-- The word that makes a definition. -/
def Definition.letters (d : Definition) : List Char := '$' :: '=' :: d.name.toList

/-- The word that makes a reference. -/
def Reference.letters (r : Reference) : List Char :=
  if r.isCall then r.name.toList else '$' :: r.name.toList

-----------------------------------------------------------------------------------------
-- Places of lexemes
-----------------------------------------------------------------------------------------

/-- The position at which a lexeme of a text starts. -/
def Lexeme.position (text : List Char) (lexeme : Lexeme) : Position := positionAt text lexeme.start

/-- (p.Marks text token letters) holds if a token of a text starts at a position, and some letters
are written there. A word is written there as a whole: what is before and after it on its line ends
words.
-/
structure Position.Marks (p : Position) (text : List Char) (token : Token) (letters : List Char)
    : Prop where
  starts : ∃ lexeme ∈ Token.scan text, lexeme.token = token ∧ lexeme.position text = p
  shows
    : ∃ before after,
        p.Shows text before letters after
        ∧ ∀ word, token = .word word → EndsSpecial before ∧ StartsSpecial after

theorem Text.endsSpecial_lastLine {text : List Char} (ends : EndsSpecial text)
    : EndsSpecial (lastLine text) := by
  intro c last
  have nonempty : lastLine text ≠ [] := by
    intro empty
    rw [empty] at last
    cases last
  rw [getLast?_of_suffix (lastLine_suffix text) nonempty] at last
  exact ends c last

theorem Text.startsSpecial_takeWhile {text : List Char} (starts : StartsSpecial text)
    (p : Char → Bool)
    : StartsSpecial (text.takeWhile p) := by
  intro c first
  cases text with
  | nil => cases first
  | cons d text =>
      rw [List.takeWhile_cons] at first
      split at first
      · exact starts c first
      · cases first

namespace Lexeme

variable {text : List Char} {lexeme : Lexeme}

/-- What is in front of a lexeme, and the position there. -/
theorem exists_fills (member : lexeme ∈ Token.scan text)
    : ∃ front span rest,
        text = front ++ (span ++ rest)
        ∧ lexeme.start = front.length
        ∧ lexeme.stop = (front ++ span).length
        ∧ lexeme.position text = .behind front
        ∧ lexeme.token.Fills front span rest := by
  obtain ⟨front, span, rest, whole, start, stop, fills⟩ :=
    (Token.tiles_scan text).exists_fills member
  refine ⟨front, span, rest, whole, start, stop, ?_, fills⟩
  rw [position, positionAt_eq_behind, start, show text = _ from whole, List.take_left]

theorem marks_word (member : lexeme ∈ Token.scan text) {letters : List Char}
    (word : lexeme.token = .word letters)
    : (lexeme.position text).Marks text (.word letters) letters := by
  refine ⟨⟨lexeme, member, word, rfl⟩, ?_⟩
  obtain ⟨front, span, rest, whole, _, _, position, fills⟩ := exists_fills member
  rw [word] at fills
  obtain ⟨rfl, _, plain, ends, starts⟩ := fills
  have line := lineFeed_not_mem_of_plain plain
  rw [position]
  refine ⟨lastLine front, rest.takeWhile (· ≠ '\n'), ?_, fun _ _ => ⟨endsSpecial_lastLine ends,
    startsSpecial_takeWhile starts _⟩⟩
  have shown := Position.shows_behind front line rest
  rwa [← whole] at shown

theorem marks_closeBlock (member : lexeme ∈ Token.scan text) (token : lexeme.token = .closeBlock)
    : (lexeme.position text).Marks text .closeBlock [')'] := by
  refine ⟨⟨lexeme, member, token, rfl⟩, ?_⟩
  obtain ⟨front, span, rest, whole, _, _, position, fills⟩ := exists_fills member
  rw [token] at fills
  obtain rfl : span = [')'] := fills
  rw [position]
  refine ⟨lastLine front, rest.takeWhile (· ≠ '\n'), ?_, by rintro _ ⟨⟩⟩
  have shown := @Position.shows_behind front [')'] (by decide) rest
  rwa [← whole] at shown

theorem marks_unterminated (member : lexeme ∈ Token.scan text) {held : List Char}
    (token : lexeme.token = .unterminated held)
    : ∃ quote rest,
        isQuote quote = true
        ∧ (lexeme.position text).Marks text (.unterminated (quote :: rest)) [quote] := by
  obtain ⟨front, span, rest, whole, _, _, position, fills⟩ := exists_fills member
  rw [token] at fills
  obtain ⟨quote, tail, isQuote, rfl, rfl, rfl⟩ := fills
  refine ⟨quote, tail, isQuote, ⟨lexeme, member, token, rfl⟩, ?_⟩
  rw [position]
  refine ⟨lastLine front, tail.takeWhile (· ≠ '\n'), ?_, by rintro _ ⟨⟩⟩
  have line : '\n' ∉ [quote] := by
    intro feed
    rw [← List.mem_singleton.mp feed] at isQuote
    exact absurd isQuote (by decide)
  have shown := Position.shows_behind front line tail
  simpa [whole] using shown

/-- Later lexemes have later positions. -/
theorem positions_inOrder (text : List Char)
    : ((Token.scan text).map (position text)).Pairwise Position.Before := by
  rw [List.pairwise_map]
  refine (Token.tiles_scan text).inOrder.imp_of_mem ?_
  intro earlier later first second apart
  obtain ⟨front, span, rest, whole, _, stop, position, fills⟩ := exists_fills first
  obtain ⟨front', span', rest', whole', start, _, position', _⟩ := exists_fills second
  have passed : front ++ span <+: front' := by
    refine List.prefix_of_prefix_length_le ⟨rest, ?_⟩ ⟨span' ++ rest', whole'.symm⟩ ?_
    · rw [List.append_assoc, ← whole]
    · omega
  obtain ⟨more, rfl⟩ := passed
  rw [position, position', List.append_assoc]
  exact Position.behind_before_append front (by simp [fills.span_ne_nil])

end Lexeme

-----------------------------------------------------------------------------------------
-- What the index records
-----------------------------------------------------------------------------------------

namespace Index

variable {index next : Index} {text : List Char} {lexemes : List Lexeme} {lexeme : Lexeme}

/-- The token of a lexeme, and its position in a text. -/
def note (text : List Char) (lexeme : Lexeme) : Token × Position :=
  (lexeme.token, lexeme.position text)

/-- (index.Places text lexemes) holds if all positions in an index are those of lexemes of a text:
references and stray brackets in their order, and for each name that is assigned to the first
lexeme that does so, once.
-/
structure Places (index : Index) (text : List Char) (lexemes : List Lexeme) : Prop where
  references
    : (index.references.toList.map fun r => (Token.word r.letters, r.position)).Sublist
        (lexemes.map (note text))
  strayCloses
    : (index.strayCloses.toList.map fun p => (Token.closeBlock, p)).Sublist
        (lexemes.map (note text))
  openString
    : ∀ p ∈ index.openString, ∃ held, (Token.unterminated held, p) ∈ lexemes.map (note text)
  definitions
    : ∀ d ∈ index.definitions,
        ∃ early lexeme late,
          lexemes = early ++ lexeme :: late
          ∧ note text lexeme = (.word d.letters, d.position)
          ∧ ∀ other ∈ early, other.token ≠ .word d.letters
  defined
    : ∀ name,
        (∃ lexeme ∈ lexemes, lexeme.token = .word ('$' :: '=' :: name.toList))
        → name ∈ index.definitions.toList.map Definition.name
  distinct : (index.definitions.toList.map Definition.name).Nodup

theorem places_empty (text : List Char)
    : Places {} text [] :=
  ⟨.slnil, .slnil, by simp, by simp, by simp, by simp⟩

/-- A further lexeme leaves the definition at a lexeme before it the first of its name. -/
theorem Places.definition_concat (places : index.Places text lexemes) (lexeme : Lexeme)
    {d : Definition} (member : d ∈ index.definitions)
    : ∃ early first late,
        lexemes ++ [lexeme] = early ++ first :: late
        ∧ note text first = (.word d.letters, d.position)
        ∧ ∀ other ∈ early, other.token ≠ .word d.letters := by
  obtain ⟨early, first, late, rfl, noted, before⟩ := places.definitions d member
  exact ⟨early, first, late ++ [lexeme], by simp, noted, before⟩

/-- A further lexeme leaves the places before it as they are, if it assigns to no new name. -/
theorem Places.concat (places : index.Places text lexemes) (lexeme : Lexeme)
    (known
      : ∀ name, lexeme.token = .word ('$' :: '=' :: name.toList)
          → name ∈ index.definitions.toList.map Definition.name)
    : index.Places text (lexemes ++ [lexeme]) := by
  have grows : (lexemes.map (note text)).Sublist ((lexemes ++ [lexeme]).map (note text)) := by simp
  refine ⟨places.references.trans grows, places.strayCloses.trans grows, ?_,
    fun _ member => places.definition_concat lexeme member, ?_, places.distinct⟩
  · intro p found
    obtain ⟨held, member⟩ := places.openString p found
    exact ⟨held, grows.subset member⟩
  · rintro name ⟨other, member, token⟩
    rcases List.mem_append.mp member with early | last
    · exact places.defined name ⟨other, early, token⟩
    · exact known name (List.mem_singleton.mp last ▸ token)

/-- The first assignment to a name is recorded with the position of its lexeme. -/
theorem Places.define (places : index.Places text lexemes) {d : Definition}
    (noted : note text lexeme = (.word d.letters, d.position))
    (new : d.name ∉ index.definitions.toList.map Definition.name)
    : Places { index with definitions := index.definitions.push d } text
        (lexemes ++ [lexeme]) := by
  have grows : (lexemes.map (note text)).Sublist ((lexemes ++ [lexeme]).map (note text)) := by simp
  refine ⟨places.references.trans grows, places.strayCloses.trans grows, ?_, ?_, ?_, ?_⟩
  · intro p found
    obtain ⟨held, member⟩ := places.openString p found
    exact ⟨held, grows.subset member⟩
  · intro e member
    rcases Array.mem_push.mp member with old | rfl
    · exact places.definition_concat lexeme old
    · refine ⟨lexemes, lexeme, [], rfl, noted, ?_⟩
      intro other earlier token
      exact new (places.defined e.name ⟨other, earlier, token⟩)
  · rintro name ⟨other, member, token⟩
    rw [Array.toList_push, List.map_append]
    rcases List.mem_append.mp member with early | last
    · exact List.mem_append_left _ (places.defined name ⟨other, early, token⟩)
    · cases List.mem_singleton.mp last
      have same : d.letters = '$' :: '=' :: name.toList := by
        simpa [note, token] using (congrArg Prod.fst noted).symm
      simp only [Definition.letters, List.cons.injEq, true_and, String.toList_inj] at same
      simp [same]
  · rw [Array.toList_push, List.map_append, List.nodup_append]
    refine ⟨places.distinct, by simp, ?_⟩
    rintro name old _ last rfl
    exact new (List.mem_singleton.mp last ▸ old)

/-- A use of a name is recorded with the position of its lexeme. -/
theorem Places.refer (places : index.Places text lexemes) {r : Reference}
    (noted : note text lexeme = (.word r.letters, r.position))
    (known
      : ∀ name, lexeme.token = .word ('$' :: '=' :: name.toList)
          → name ∈ index.definitions.toList.map Definition.name)
    : Places { index with references := index.references.push r } text (lexemes ++ [lexeme]) := by
  have later := places.concat lexeme known
  refine ⟨?_, later.strayCloses, later.openString, later.definitions, later.defined,
    later.distinct⟩
  simpa [noted] using places.references.append_right [note text lexeme]

/-- What a word means is recorded with the position of the word, by cases on what it means. -/
theorem Places.addTerm (places : index.Places text lexemes) {letters : List Char} {term : Term}
    (word : lexeme.token = .word letters) (meaning : Term.ofWord letters = .ok term)
    (afterBlock : Bool)
    : (index.addTerm (lexeme.position text) afterBlock term).Places text (lexemes ++ [lexeme]) := by
  have known : (∀ name, term ≠ .assign name) → ∀ name,
      lexeme.token = .word ('$' :: '=' :: name.toList)
      → name ∈ index.definitions.toList.map Definition.name := by
    intro other name assigns
    cases word.symm.trans assigns
    cases meaning
    exact absurd (by simp) (other name)
  cases term with
  | number n => exact places.concat lexeme (known (by simp))
  | load name | call name =>
      refine places.refer ?_ (known (by simp))
      rw [note, word, Term.letters_of_ofWord meaning rfl]
      rfl
  | assign name =>
      have spelled := Term.letters_of_ofWord meaning rfl
      rw [Index.addTerm]
      split
      · next old =>
          refine places.concat lexeme fun other assigns => ?_
          cases word.symm.trans assigns
          cases meaning
          simpa using isSome_definition?.mp old
      · next new =>
          refine places.define ?_ (mt isSome_definition?.mpr new)
          rw [note, word, spelled]
          rfl

/-- A token that is entered is recorded with its position, by cases on the token. -/
theorem Places.addToken (places : index.Places text lexemes) {afterBlock : Bool}
    (added : index.addToken (lexeme.position text) afterBlock lexeme.token = .ok next)
    : next.Places text (lexemes ++ [lexeme]) := by
  cases token : lexeme.token with
  | word letters =>
      rw [token, Index.addToken] at added
      cases meaning : Term.ofWord letters with
      | error fault => rw [meaning] at added; cases added
      | ok term =>
          rw [meaning] at added
          cases added
          exact places.addTerm token meaning afterBlock
  | openBlock | string _ =>
      have later := places.concat lexeme (by simp [token])
      rw [token] at added
      cases added
      exact ⟨later.references, later.strayCloses, later.openString, later.definitions,
        later.defined, later.distinct⟩
  | unterminated held =>
      have later := places.concat lexeme (by simp [token])
      rw [token] at added
      cases added
      refine ⟨later.references, later.strayCloses, ?_, later.definitions, later.defined,
        later.distinct⟩
      rintro p ⟨⟩
      exact ⟨held, by simp [note, token]⟩
  | closeBlock =>
      have later := places.concat lexeme (by simp [token])
      rw [token, Index.addToken] at added
      split at added
      · cases added
        refine ⟨later.references, ?_, later.openString, later.definitions, later.defined,
          later.distinct⟩
        simpa [note, token] using places.strayCloses.append_right [note text lexeme]
      · cases added
        exact ⟨later.references, later.strayCloses, later.openString, later.definitions,
          later.defined, later.distinct⟩

/-- Tokens that are entered in order are all recorded with their positions, by induction on the
lexemes that tile the text. The walk stands at the start of the last lexeme entered, so the next one
is still ahead of it.
-/
theorem Places.addTokens {index last : Index} {walk : Walk} {afterBlock : Bool}
    {front rest passed : List Char} {early lexemes : List Lexeme}
    (places : index.Places text early) (tiles : Token.Tiles front rest lexemes)
    (whole : text = front ++ rest) (reached : walk.Reached text passed) (ahead : passed <+: front)
    (added : index.addTokens walk afterBlock lexemes = .ok last)
    : last.Places text (early ++ lexemes) := by
  induction tiles generalizing index walk afterBlock passed early with
  | done => cases added; simpa using places
  | @token front gap span rest token lexemes _ _ _ ih =>
      obtain ⟨more, rfl⟩ := ahead
      have next : text = passed ++ (more ++ gap) ++ (span ++ rest) := by simpa using whole
      have arrived := reached.advance_to next
      rw [← List.append_assoc] at arrived
      have start : (walk.advance ((passed ++ more ++ gap).length - walk.offset)).position
          = Lexeme.position text ⟨token, (passed ++ more ++ gap).length,
              (passed ++ more ++ gap ++ span).length⟩ := by
        rw [arrived.position, Lexeme.position, positionAt_eq_behind, arrived.whole, List.take_left]
      rw [Index.addTokens] at added
      split at added
      · next next here =>
          have later := @ih next _ _ _ _ (places.addToken (start ▸ here)) (by simpa using whole)
            arrived (List.prefix_append _ _) added
          simpa using later
      · cases added

theorem places_of_ofText (indexed : ofText text = .ok index)
    : index.Places text (Token.scan text) := by
  rw [ofText] at indexed
  split at indexed
  · next last added =>
      have places := (places_empty text).addTokens (Token.tiles_scan text) rfl
        (Walk.reached_start text) List.prefix_rfl added
      cases judged : verdict text with
      | error fault => rw [judged] at indexed; cases indexed
      | ok problem =>
          rw [judged] at indexed
          cases indexed
          exact ⟨places.references, places.strayCloses, places.openString, places.definitions,
            places.defined, places.distinct⟩
  · cases indexed

/-- A name means the only definition it has. -/
theorem Places.definition?_eq (places : index.Places text lexemes) {d : Definition}
    (member : d ∈ index.definitions)
    : index.definition? d.name = some d := by
  have known := isSome_definition?.mpr
    (List.mem_map.mpr ⟨d, Array.mem_toList_iff.mpr member, rfl⟩)
  obtain ⟨e, found⟩ := Option.isSome_iff_exists.mp known
  have named : e.name = d.name := by simpa using Array.find?_some found
  have listed := Array.mem_of_find?_eq_some found
  rw [found, List.inj_on_of_nodup_map places.distinct (Array.mem_toList_iff.mpr listed)
    (Array.mem_toList_iff.mpr member) named]

theorem exists_of_mem_notes {token : Token} {p : Position}
    (member : (token, p) ∈ (Token.scan text).map (note text))
    : ∃ lexeme ∈ Token.scan text, lexeme.token = token ∧ lexeme.position text = p := by
  obtain ⟨lexeme, found, same⟩ := List.mem_map.mp member
  cases same
  exact ⟨lexeme, found, rfl, rfl⟩

/-- Positions that are recorded in the order of their lexemes are increasing. -/
theorem inOrder_of_notes {notes : List (Token × Position)}
    (sublist : notes.Sublist ((Token.scan text).map (note text)))
    : (notes.map Prod.snd).Pairwise Position.Before := by
  refine (Lexeme.positions_inOrder text).sublist ?_
  have positions := sublist.map Prod.snd
  rwa [List.map_map] at positions

/-- The positions in an index point at their tokens. Where a text has an index, each position in it
is the position of a token of the text, on a line that the text has if it is cut at line feeds, and
at its column that token is written: the whole word of a definition or a reference, a closing
bracket, or the quote that opens a string. References and stray brackets are listed with increasing
positions, and a definition is at the first word of the text that assigns to its name. Witness: the
tokens and the gaps between them make up the text, and the walk that counts lines and columns stops
at the start of each token.
-/
theorem positions_point_at_tokens (indexed : ofText text = .ok index)
    : (∀ d ∈ index.definitions, d.position.Marks text (.word d.letters) d.letters)
      ∧ (∀ r ∈ index.references, r.position.Marks text (.word r.letters) r.letters)
      ∧ (∀ p ∈ index.strayCloses, p.Marks text .closeBlock [')'])
      ∧ (∀ p ∈ index.openString,
          ∃ quote rest,
            isQuote quote = true ∧ p.Marks text (.unterminated (quote :: rest)) [quote])
      ∧ (index.references.toList.map Reference.position).Pairwise Position.Before
      ∧ index.strayCloses.toList.Pairwise Position.Before
      ∧ ∀ d ∈ index.definitions,
          ∃ early lexeme late,
            Token.scan text = early ++ lexeme :: late
            ∧ lexeme.token = .word d.letters
            ∧ lexeme.position text = d.position
            ∧ ∀ other ∈ early, other.token ≠ .word d.letters := by
  have places := places_of_ofText indexed
  refine ⟨?_, ?_, ?_, ?_, ?_, ?_, ?_⟩
  · intro d member
    obtain ⟨early, lexeme, late, whole, noted, _⟩ := places.definitions d member
    obtain ⟨token, position⟩ := Prod.mk.inj noted
    exact position ▸ lexeme.marks_word (by simp [whole]) token
  · intro r member
    have noted := places.references.subset (List.mem_map.mpr ⟨r, by simpa using member, rfl⟩)
    obtain ⟨lexeme, found, token, position⟩ := exists_of_mem_notes noted
    exact position ▸ lexeme.marks_word found token
  · intro p member
    have noted := places.strayCloses.subset (List.mem_map.mpr ⟨p, by simpa using member, rfl⟩)
    obtain ⟨lexeme, found, token, position⟩ := exists_of_mem_notes noted
    exact position ▸ lexeme.marks_closeBlock found token
  · intro p opened
    obtain ⟨held, noted⟩ := places.openString p opened
    obtain ⟨lexeme, found, token, position⟩ := exists_of_mem_notes noted
    exact position ▸ lexeme.marks_unterminated found token
  · simpa [Function.comp_def] using inOrder_of_notes places.references
  · simpa using inOrder_of_notes places.strayCloses
  · intro d member
    obtain ⟨early, lexeme, late, whole, noted, before⟩ := places.definitions d member
    obtain ⟨token, position⟩ := Prod.mk.inj noted
    exact ⟨early, lexeme, late, whole, token, position, before⟩

/-- A definition behind a string over two lines, a call on the next line, and an open string. -/
theorem positions_behind_string_over_lines
    : let text := "'a\nb' ) $=f\nf ) \"x".toList
      ∃ index,
        ofText text = .ok index
        ∧ index.strayCloses.toList = [⟨1, 3⟩, ⟨2, 2⟩]
        ∧ (⟨1, 5⟩ : Position).Marks text (.word "$=f".toList) "$=f".toList
        ∧ (⟨2, 0⟩ : Position).Marks text (.word "f".toList) "f".toList
        ∧ (⟨2, 2⟩ : Position).Marks text .closeBlock [')']
        ∧ (⟨1, 3⟩ : Position).Before ⟨2, 2⟩ := by
  have facts : (ofText "'a\nb' ) $=f\nf ) \"x".toList).toOption.map (fun index =>
        (index.definitions.toList, index.references.toList, index.strayCloses.toList))
      = some ([⟨"f", true, ⟨1, 5⟩⟩], [⟨"f", true, ⟨2, 0⟩⟩], [⟨1, 3⟩, ⟨2, 2⟩]) := by
    cbv
  intro text
  change (ofText text).toOption.map _ = _ at facts
  cases indexed : ofText text with
  | error fault => rw [indexed] at facts; cases facts
  | ok index =>
      rw [indexed] at facts
      obtain ⟨definitions, references, strays⟩ : _ ∧ _ ∧ _ := by
        simpa using Option.some.inj facts
      obtain ⟨defines, refers, closes, _, _, inOrder, _⟩ := positions_point_at_tokens indexed
      rw [strays] at inOrder
      refine ⟨index, rfl, strays, ?_, ?_, ?_, by simpa using inOrder⟩
      · exact defines ⟨"f", true, ⟨1, 5⟩⟩ (Array.mem_toList_iff.mp (by simp [definitions]))
      · exact refers ⟨"f", true, ⟨2, 0⟩⟩ (Array.mem_toList_iff.mp (by simp [references]))
      · exact closes ⟨2, 2⟩ (Array.mem_toList_iff.mp (by simp [strays]))

end Index

end StackText
