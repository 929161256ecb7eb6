import StackText.Json.Reader

/-! What room for nested calls means to the reader. Each bracket that is read takes a part of the
room, so a text is too deep only if it opens nearly as many brackets as there is room; one that
begins with more brackets than that always is.
-/

namespace StackText.Json

/-- The number of brackets and braces that open in a text. -/
def openings (text : List Char) : Nat := text.countP fun c => c = '[' || c = '\x7b'

@[simp] theorem openings_cons_bracket (rest : List Char)
    : openings ('[' :: rest) = openings rest + 1 := by
  simp [openings]

@[simp] theorem openings_cons_brace (rest : List Char)
    : openings ('\x7b' :: rest) = openings rest + 1 := by
  simp [openings]

theorem openings_le {part text : List Char} (suffix : part <:+ text)
    : openings part ≤ openings text :=
  suffix.sublist.countP_le

theorem Cursor.advance_suffix (c : Cursor) (n : Nat)
    : (c.advance n).rest <:+ c.rest :=
  List.drop_suffix n c.rest

theorem Cursor.skipSpace_suffix (c : Cursor)
    : c.skipSpace.rest <:+ c.rest :=
  c.advance_suffix _

/-- What stands behind one character and blanks. -/
theorem Cursor.next_suffix (c : Cursor)
    : (c.advance 1).skipSpace.rest <:+ c.rest :=
  (Cursor.skipSpace_suffix _).trans (c.advance_suffix 1)

-----------------------------------------------------------------------------------------
-- Room
-----------------------------------------------------------------------------------------

/-- (Within room text result) holds if a result can come of a text where there is room: the reader
comes to an end of the text, and a call that finds no room was nested by brackets of the text.
-/
structure Within {α : Type} (room : Nat) (text : List Char) (result : Except Fault (α × Cursor))
    : Prop where
  leaves : ∀ {v c}, result = .ok (v, c) → c.rest <:+ text
  deep
    : ∀ {call left},
        result = .error (.tooDeep call left) → left < call.depth ∧ room ≤ left + openings text

variable {α β : Type} {room : Nat} {text part : List Char}

theorem Within.mono {result : Except Fault (α × Cursor)} (within : Within room part result)
    (suffix : part <:+ text)
    : Within room text result where
  leaves same := (within.leaves same).trans suffix
  deep same := by
    obtain ⟨full, nested⟩ := within.deep same
    exact ⟨full, Nat.le_trans nested (Nat.add_le_add_left (openings_le suffix) _)⟩

theorem within_ok {v : α} {c : Cursor} (suffix : c.rest <:+ text)
    : Within room text (.ok (v, c)) where
  leaves := by rintro _ _ ⟨⟩; exact suffix
  deep := by rintro _ _ ⟨⟩

theorem within_error {fault : Fault} (shallow : ∀ call left, fault ≠ .tooDeep call left)
    : Within room text (.error fault : Except Fault (α × Cursor)) where
  leaves := by rintro _ _ ⟨⟩
  deep same := absurd (Except.error.inj same) (shallow _ _)

/-- A call that finds no room is too deep, whatever brackets the text has. -/
theorem within_enter (call : Call) {next : Except Fault (α × Cursor)}
    (goesOn : call.depth ≤ room → Within room text next)
    : Within room text (call.enter room >>= fun _ => next) := by
  rw [Call.enter]
  split
  · next full =>
      refine ⟨by rintro _ _ ⟨⟩, ?_⟩
      rintro _ _ ⟨⟩
      exact ⟨full, Nat.le_add_right ..⟩
  · next free => exact goesOn (Nat.le_of_not_lt free)

theorem within_raise (what : Problem) (position : Nat)
    : Within room text (what.raise room position : Except Fault (α × Cursor)) :=
  within_enter .report fun _ => within_error (by simp)

/-- What is read behind a part of a text is within the text. -/
theorem Within.bind {first : Except Fault (α × Cursor)} (within : Within room text first)
    {next : α × Cursor → Except Fault (β × Cursor)}
    (goesOn : ∀ v c, c.rest <:+ text → Within room text (next (v, c)))
    : Within room text (first >>= next) := by
  cases first with
  | ok read => exact goesOn read.1 read.2 (within.leaves rfl)
  | error fault =>
      refine ⟨by rintro _ _ ⟨⟩, ?_⟩
      rintro _ _ ⟨⟩
      exact within.deep rfl

-----------------------------------------------------------------------------------------
-- Reading
-----------------------------------------------------------------------------------------

/-- A string is read within its text, by induction on the characters that are left. -/
theorem within_readString (room start : Nat) (done : List Char) (position : Nat) (text : List Char)
    : Within room text (readString room start done position text) := by
  fun_induction readString room start done position text with
  | case1 | case3 | case4 | case7 | case9 | case11 | case12 => exact within_raise ..
  | case2 => exact within_ok ⟨[_], rfl⟩
  | case5 => next ih => exact ih.mono ⟨[_, _, _, _, _, _], rfl⟩
  | case6 => next ih => exact ih.mono ⟨[_, _, _, _, _, _], rfl⟩
  | case8 => next ih => exact ih.mono ((List.drop_suffix 5 _).trans ⟨[_, _, _, _, _, _, _], rfl⟩)
  | case10 => next ih => exact ih.mono ⟨[_, _], rfl⟩
  | case13 => next ih => exact ih.mono ⟨[_], rfl⟩

theorem within_readNumber (room : Nat) (c : Cursor)
    : Within room c.rest (readNumber c) := by
  unfold readNumber
  extract_lets negative start whole afterWhole fraction afterFraction
  have first : afterWhole.rest <:+ c.rest := by
    refine (start.advance_suffix _).trans ?_
    simp only [start]
    split
    · exact c.advance_suffix 1
    · exact List.suffix_rfl
  have second : afterFraction.rest <:+ c.rest := by
    simp only [afterFraction]
    split
    · exact first
    · exact (afterWhole.advance_suffix _).trans first
  split
  · exact within_error (by simp)
  · split
    · split
      · exact within_error (by simp)
      · exact within_ok first
    · exact within_ok ((afterFraction.advance_suffix _).trans second)

/-- The calls for an array or an object are nested by its bracket, which stands before all that
they read.
-/
theorem Within.inside {result : Except Fault (α × Cursor)} (within : Within (room - 1) part result)
    {bracket : Char} {rest : List Char} (opens : openings (bracket :: rest) = openings rest + 1)
    (suffix : part <:+ rest)
    : Within room (bracket :: rest) result where
  leaves same := (within.leaves same).trans (suffix.trans ⟨[_], rfl⟩)
  deep same := by
    obtain ⟨full, nested⟩ := within.deep same
    have fewer := openings_le suffix
    exact ⟨full, by omega⟩

theorem Cursor.behind_suffix {c : Cursor} {first : Char} {rest : List Char}
    (text : c.rest = first :: rest)
    : (c.advance 1).skipSpace.rest <:+ rest := by
  refine (Cursor.skipSpace_suffix _).trans ?_
  rw [Cursor.advance, text]
  exact List.suffix_rfl

theorem within_readValue {fuel : Nat}
    (items : ∀ room done c, Within room c.rest (readItems fuel room done c))
    (fields : ∀ room done c, Within room c.rest (readFields fuel room done c)) (room : Nat)
    (c : Cursor)
    : Within room c.rest (readValue (fuel + 1) room c) := by
  rw [readValue]
  split
  · next rest text =>
      rw [text]
      refine ((within_readString ..).mono ⟨[_], rfl⟩).bind fun s c suffix => ?_
      exact within_ok suffix
  · next rest text =>
      have behind := Cursor.behind_suffix text
      rw [text]
      refine within_enter .array fun _ => ?_
      dsimp only
      split
      · exact within_ok ((Cursor.advance_suffix _ 1).trans (behind.trans ⟨[_], rfl⟩))
      · exact (items ..).inside (openings_cons_bracket _) behind
  · next rest text =>
      have behind := Cursor.behind_suffix text
      rw [text]
      refine within_enter .object fun _ => ?_
      dsimp only
      split
      · exact within_ok ((Cursor.advance_suffix _ 1).trans (behind.trans ⟨[_], rfl⟩))
      · exact (fields ..).inside (openings_cons_brace _) behind
  · split
    · next name v _ =>
        have named : Within room c.rest (.ok (v, c.advance name.length)) :=
          within_ok (c.advance_suffix _)
        split
        · exact within_enter .name fun _ => named
        · exact named
    · exact within_readNumber room c

theorem within_readItems {fuel : Nat}
    (values : ∀ room c, Within room c.rest (readValue fuel room c))
    (items : ∀ room done c, Within room c.rest (readItems fuel room done c)) (room : Nat)
    (done : List Json) (c : Cursor)
    : Within room c.rest (readItems (fuel + 1) room done c) := by
  rw [readItems]
  refine (values room c).bind fun item next suffix => ?_
  have behind := next.skipSpace_suffix.trans suffix
  dsimp only
  split
  · exact within_ok ((Cursor.advance_suffix _ 1).trans behind)
  · exact (items ..).mono ((Cursor.next_suffix _).trans behind)
  · exact within_raise ..

theorem within_readFields {fuel : Nat}
    (values : ∀ room c, Within room c.rest (readValue fuel room c))
    (fields : ∀ room done c, Within room c.rest (readFields fuel room done c)) (room : Nat)
    (done : List (String × Json)) (c : Cursor)
    : Within room c.rest (readFields (fuel + 1) room done c) := by
  rw [readFields]
  split
  · next rest text =>
      rw [text]
      refine ((within_readString ..).mono ⟨[_], rfl⟩).bind fun name next suffix => ?_
      have behindName := next.skipSpace_suffix.trans suffix
      dsimp only
      split
      · have behindColon := next.skipSpace.next_suffix.trans behindName
        refine ((values ..).mono behindColon).bind fun v next suffix => ?_
        have behind := next.skipSpace_suffix.trans suffix
        dsimp only
        split
        · exact within_ok ((Cursor.advance_suffix _ 1).trans behind)
        · exact (fields ..).mono ((Cursor.next_suffix _).trans behind)
        · exact within_raise ..
      · exact within_raise ..
  · exact within_raise ..

/-- Values, items and fields are read within their text, by induction on the fuel. -/
theorem within_fuel (fuel : Nat)
    : (∀ room c, Within room c.rest (readValue fuel room c))
      ∧ (∀ room done c, Within room c.rest (readItems fuel room done c))
      ∧ ∀ room done c, Within room c.rest (readFields fuel room done c) := by
  induction fuel with
  | zero =>
      refine ⟨fun _ c => ?_, fun _ _ c => ?_, fun _ _ c => ?_⟩
        <;> exact within_error (by simp)
  | succ fuel ih =>
      obtain ⟨values, items, fields⟩ := ih
      exact ⟨within_readValue items fields, within_readItems values items,
        within_readFields values fields⟩

/-- A text that is too deep opens almost as many brackets as there is room. -/
theorem room_of_tooDeep {call : Call} {left : Nat}
    (deep : read room text = .error (.tooDeep call left))
    : left < call.depth ∧ room ≤ left + openings text := by
  have within := ((within_fuel (2 * text.length + 2)).1 room (Cursor.skipSpace ⟨text, 0⟩)).mono
    (Cursor.skipSpace_suffix _)
  rw [read] at deep
  dsimp only at deep
  split at deep
  · cases deep
  · cases reads : readValue (2 * text.length + 2) room (Cursor.skipSpace ⟨text, 0⟩) with
    | error fault =>
        rw [reads] at deep
        cases deep
        exact within.deep reads
    | ok read =>
        -- What stands behind a whole value is reported without a call.
        simp only [reads, bind, Except.bind] at deep
        split at deep <;> cases deep

/-- Brackets take the room one by one, by induction on it. -/
theorem readValue_brackets {room fuel : Nat} (enough : 2 * room < fuel) (position : Nat)
    (rest : List Char)
    : readValue fuel room ⟨List.replicate (room + 1) '[' ++ rest, position⟩
      = .error (.tooDeep .array 0) := by
  induction room generalizing fuel position with
  | zero =>
      obtain ⟨fuel, rfl⟩ := Nat.exists_eq_add_of_lt enough
      rfl
  | succ room ih =>
      obtain ⟨fuel, rfl⟩ : ∃ less, fuel = less + 2 := ⟨fuel - 2, by omega⟩
      show readItems (fuel + 1) room [] ⟨List.replicate (room + 1) '[' ++ rest, position + 1⟩ = _
      rw [readItems, ih (by omega)]
      rfl

/-- A text that begins with more brackets than there is room is too deep, whatever follows. -/
theorem read_brackets (room : Nat) (rest : List Char)
    : read room (List.replicate (room + 1) '[' ++ rest) = .error (.tooDeep .array 0) := by
  have enough : 2 * room < 2 * (List.replicate (room + 1) '[' ++ rest).length + 2 := by
    rw [List.length_append, List.length_replicate]
    omega
  have deep := readValue_brackets enough 0 rest
  have start : Cursor.skipSpace ⟨List.replicate (room + 1) '[' ++ rest, 0⟩
      = ⟨List.replicate (room + 1) '[' ++ rest, 0⟩ := rfl
  rw [read, start, deep]
  rfl

end StackText.Json
