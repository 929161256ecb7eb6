import Mathlib
import StackText.Editor.Basic

/-! What an editor shows follows from the events it was told of: the text, the index and the
diagnostics of an address are those of the last text that came for it.
-/

namespace StackText

-----------------------------------------------------------------------------------------
-- Events
-----------------------------------------------------------------------------------------

/-- What an editor is told of a text. -/
inductive EditorEvent where
  | opened (address : String) (text : List Char)
  /-- A change, with the new texts in order. -/
  | changed (address : String) (texts : List (List Char))
  | closed (address : String)

namespace EditorEvent

/-- The address that an event is about. -/
def address : EditorEvent → String
  | .opened address _ | .changed address _ | .closed address => address

/-- The text that an event carries, if it does. -/
def text? : EditorEvent → Option (List Char)
  | .opened _ text => some text
  | .changed _ texts => texts.getLast?
  | .closed _ => none

/-- (event.isClosing) holds if a text is closed. -/
def isClosing : EditorEvent → Bool
  | .closed _ => true
  | _ => false

/-- The events on an address since it was last absent, the latest first. -/
def recent (address : String) (events : List EditorEvent) : List EditorEvent :=
  (events.reverse.filter (·.address = address)).takeWhile (!·.isClosing)

/-- The text that some events leave, the latest first: that of the last event that carries one, or
an empty one.
-/
def lastText (events : List EditorEvent) : List Char := (events.findSome? text?).getD []

end EditorEvent

/-- An editor and what was published, the latest first. -/
structure Desk where
  editor : Editor := {}
  published : List Publication := []

namespace Desk

open EditorEvent

/-- Takes an event. -/
def take (desk : Desk) (event : EditorEvent) : Except ReadFault Desk :=
  let result := match event with
    | .opened address text => desk.editor.update address text
    | .changed address texts => desk.editor.change address texts
    | .closed address => .ok (desk.editor.close address)
  result.map fun (editor, publication) => ⟨editor, publication :: desk.published⟩

/-- The diagnostics that were last published for an address. -/
def shown? (desk : Desk) (address : String) : Option (List Diagnostic) :=
  (desk.published.find? (·.address = address)).map Publication.diagnostics

end Desk

-----------------------------------------------------------------------------------------
-- Texts by address
-----------------------------------------------------------------------------------------

namespace Editor

/-- Replacing an entry changes what is found at its address, if something is. -/
theorem lookup_replace (documents : List (String × Document)) (address other : String)
    (document : Document)
    : (documents.map fun entry => if entry.1 = address then (address, document) else entry).lookup
        other
      = if other = address then (documents.lookup address).map fun _ => document
        else documents.lookup other := by
  induction documents with
  | nil => simp
  | cons entry documents ih =>
      simp only [List.map_cons]
      grind

theorem document?_put (editor : Editor) (address other : String) (document : Document)
    : (editor.put address document).document? other
      = if other = address then some document else editor.document? other := by
  rw [put]
  split
  · next known =>
      obtain ⟨old, found⟩ := Option.isSome_iff_exists.mp known
      rw [document?] at found
      simp only [document?, lookup_replace, found, Option.map_some]
  · next unknown =>
      have absent : editor.documents.lookup address = none :=
        Option.not_isSome_iff_eq_none.mp unknown
      simp only [document?, List.lookup_append, List.lookup_cons, List.lookup_nil]
      grind

theorem document?_close (editor : Editor) (address other : String)
    : (editor.close address).1.document? other
      = if other = address then none else editor.document? other := by
  simp only [close, document?]
  induction editor.documents with
  | nil => simp
  | cons entry documents ih =>
      simp only [List.filter_cons]
      grind

end Editor

-----------------------------------------------------------------------------------------
-- What an event does
-----------------------------------------------------------------------------------------

namespace Desk

open EditorEvent

variable {desk next : Desk} {event : EditorEvent} {events : List EditorEvent}
  {address other : String}

/-- The text that is open at an address; an empty one if none is. -/
def text (desk : Desk) (address : String) : List Char :=
  ((desk.editor.document? address).map Document.text).getD []

/-- Puts a text with its index at an address and shows its diagnostics. -/
def put (desk : Desk) (address : String) (document : Document) : Desk :=
  ⟨desk.editor.put address document, ⟨address, document.index.diagnostics⟩ :: desk.published⟩

/-- Closes an address and shows that it has no diagnostics. -/
def close (desk : Desk) (address : String) : Desk :=
  ⟨(desk.editor.close address).1, ⟨address, []⟩ :: desk.published⟩

theorem shown?_put (desk : Desk) (address other : String) (document : Document)
    : (desk.put address document).shown? other
      = if other = address then some document.index.diagnostics else desk.shown? other := by
  simp only [put, shown?, List.find?_cons]
  grind

theorem shown?_close (desk : Desk) (address other : String)
    : (desk.close address).shown? other
      = if other = address then some [] else desk.shown? other := by
  simp only [close, shown?, List.find?_cons]
  grind

theorem take_of_closing (closing : event.isClosing = true)
    : desk.take event = .ok (desk.close event.address) := by
  cases event with
  | closed address => rfl
  | opened | changed => cases closing

theorem take_opened (desk : Desk) (address : String) (text : List Char)
    : desk.take (.opened address text)
      = (Index.ofText text).map fun index => desk.put address ⟨text, index⟩ := by
  simp only [take, Editor.update]
  cases Index.ofText text <;> rfl

/-- A change that brings no text opens the one that is open again. -/
theorem take_changed (desk : Desk) (address : String) (texts : List (List Char))
    : desk.take (.changed address texts)
      = desk.take (.opened address (texts.getLast?.getD (desk.text address))) := rfl

/-- Every other event puts the text it carries, or else the one that is open. -/
theorem take_of_not_closing (staying : event.isClosing = false)
    : desk.take event
      = let text := event.text?.getD (desk.text event.address)
        (Index.ofText text).map fun index => desk.put event.address ⟨text, index⟩ := by
  cases event with
  | closed => cases staying
  | opened address text => exact take_opened desk address text
  | changed address texts =>
      rw [take_changed]
      exact take_opened desk address _

/-- An event leaves all other addresses alone. -/
theorem take_other (taken : desk.take event = .ok next) (apart : other ≠ event.address)
    : next.editor.document? other = desk.editor.document? other
      ∧ next.shown? other = desk.shown? other := by
  cases closing : event.isClosing with
  | true =>
      rw [take_of_closing closing] at taken
      cases taken
      exact ⟨(Editor.document?_close ..).trans (if_neg apart),
        (shown?_close ..).trans (if_neg apart)⟩
  | false =>
      rw [take_of_not_closing closing] at taken
      cases indexed : Index.ofText (event.text?.getD (desk.text event.address)) with
      | error fault => simp [indexed, Except.map] at taken
      | ok index =>
          simp only [indexed, Except.map] at taken
          cases taken
          exact ⟨(Editor.document?_put ..).trans (if_neg apart),
            (shown?_put ..).trans (if_neg apart)⟩

end Desk

-----------------------------------------------------------------------------------------
-- Events one after another
-----------------------------------------------------------------------------------------

namespace EditorEvent

variable {event : EditorEvent} {address : String}

theorem recent_concat_of_ne (events : List EditorEvent) (apart : address ≠ event.address)
    : recent address (events ++ [event]) = recent address events := by
  simp [recent, Ne.symm apart]

theorem recent_concat_of_closing (events : List EditorEvent) (closing : event.isClosing = true)
    : recent event.address (events ++ [event]) = [] := by
  simp [recent, closing]

theorem recent_concat_of_not_closing (events : List EditorEvent)
    (staying : event.isClosing = false)
    : recent event.address (events ++ [event]) = event :: recent event.address events := by
  simp [recent, staying]

theorem lastText_cons (event : EditorEvent) (events : List EditorEvent)
    : lastText (event :: events) = event.text?.getD (lastText events) := by
  rw [lastText, List.findSome?_cons]
  cases event.text? <;> rfl

end EditorEvent

theorem Index.exists_ofText_of_isSome {text : List Char}
    (ok : (ofText text).toOption.isSome = true)
    : ∃ index, ofText text = .ok index := by
  cases indexed : ofText text with
  | ok index => exact ⟨index, rfl⟩
  | error fault => rw [indexed] at ok; cases ok

namespace Desk

open EditorEvent

variable {desk next : Desk} {event : EditorEvent} {events : List EditorEvent}
  {address other : String}

/-- (desk.Follows events address) holds if what a desk has of an address is what the events make of
it. An address without recent events is not open, and has no diagnostics if it was closed; one with
recent events is open with the text they leave, the index of that text and its diagnostics.
-/
structure Follows (desk : Desk) (events : List EditorEvent) (address : String) : Prop where
  absent
    : recent address events = []
      → desk.editor.document? address = none
        ∧ ((∃ event ∈ events, event.address = address) → desk.shown? address = some [])
        ∧ ((∀ event ∈ events, event.address ≠ address) → desk.shown? address = none)
  present
    : recent address events ≠ []
      → ∃ index,
          Index.ofText (lastText (recent address events)) = .ok index
          ∧ desk.editor.document? address = some ⟨lastText (recent address events), index⟩
          ∧ desk.shown? address = some index.diagnostics

theorem follows_nil (address : String)
    : Follows {} [] address :=
  ⟨fun _ => ⟨rfl, by simp, fun _ => rfl⟩, fun recent => absurd rfl recent⟩

theorem Follows.text_eq (follows : desk.Follows events address)
    : desk.text address = lastText (recent address events) := by
  rw [text]
  by_cases none : recent address events = []
  · rw [(follows.absent none).1, none]
    rfl
  · obtain ⟨index, _, found, _⟩ := follows.present none
    rw [found]
    rfl

/-- Where nothing changes, an event on another address makes no difference. -/
theorem Follows.elsewhere (follows : desk.Follows events other) (apart : other ≠ event.address)
    (document : next.editor.document? other = desk.editor.document? other)
    (shown : next.shown? other = desk.shown? other)
    : next.Follows (events ++ [event]) other := by
  obtain ⟨absent, present⟩ := follows
  rw [← recent_concat_of_ne events apart, ← document, ← shown] at absent present
  refine ⟨fun none => ?_, present⟩
  obtain ⟨missing, cleared, unmentioned⟩ := absent none
  refine ⟨missing, ?_, ?_⟩
  · rintro ⟨mention, member, same⟩
    rcases List.mem_append.mp member with earlier | last
    · exact cleared ⟨mention, earlier, same⟩
    · cases List.mem_singleton.mp last
      exact absurd same.symm apart
  · intro never
    exact unmentioned fun mention member => never mention (List.mem_append_left _ member)

theorem follows_close (desk : Desk) (events : List EditorEvent) (closing : event.isClosing = true)
    : (desk.close event.address).Follows (events ++ [event]) event.address := by
  have none := recent_concat_of_closing events closing
  refine ⟨fun _ => ⟨?_, fun _ => ?_, fun never => ?_⟩, fun some => absurd none some⟩
  · exact (Editor.document?_close ..).trans (if_pos rfl)
  · exact (shown?_close ..).trans (if_pos rfl)
  · exact absurd rfl (never event (by simp))

theorem Follows.put (follows : desk.Follows events event.address)
    (staying : event.isClosing = false) {index : Index}
    (indexed : Index.ofText (event.text?.getD (desk.text event.address)) = .ok index)
    : (desk.put event.address ⟨event.text?.getD (desk.text event.address), index⟩).Follows
        (events ++ [event]) event.address := by
  have left : event.text?.getD (desk.text event.address)
      = lastText (recent event.address (events ++ [event])) := by
    rw [recent_concat_of_not_closing events staying, lastText_cons, follows.text_eq]
  rw [left] at indexed ⊢
  refine ⟨fun none => ?_, fun _ => ⟨index, indexed, ?_, ?_⟩⟩
  · rw [recent_concat_of_not_closing events staying] at none
    cases none
  · exact (Editor.document?_put ..).trans (if_pos rfl)
  · exact (shown?_put ..).trans (if_pos rfl)

/-- The text that an event leaves has an index, if that holds of the text it carries. -/
theorem Follows.exists_ofText (follows : desk.Follows events event.address)
    (indexable : ∀ text, event.text? = some text → ∃ index, Index.ofText text = .ok index)
    : ∃ index, Index.ofText (event.text?.getD (desk.text event.address)) = .ok index := by
  cases carried : event.text? with
  | some text => exact indexable text carried
  | none =>
      rw [Option.getD_none, follows.text_eq]
      by_cases none : recent event.address events = []
      · rw [none]
        exact Index.exists_ofText_of_isSome (by cbv)
      · obtain ⟨index, indexed, _⟩ := follows.present none
        exact ⟨index, indexed⟩

/-- A desk that follows the events goes on to do so. -/
theorem exists_take (follows : ∀ address, desk.Follows events address)
    (indexable : ∀ text, event.text? = some text → ∃ index, Index.ofText text = .ok index)
    : ∃ next,
        desk.take event = .ok next ∧ ∀ address, next.Follows (events ++ [event]) address := by
  obtain ⟨next, taken, own⟩ : ∃ next,
      desk.take event = .ok next ∧ next.Follows (events ++ [event]) event.address := by
    cases closing : event.isClosing with
    | true => exact ⟨_, take_of_closing closing, follows_close desk events closing⟩
    | false =>
        obtain ⟨index, indexed⟩ := (follows event.address).exists_ofText indexable
        refine ⟨_, ?_, (follows event.address).put closing indexed⟩
        rw [take_of_not_closing closing]
        simp only [indexed]
        rfl
  refine ⟨next, taken, fun address => ?_⟩
  by_cases same : address = event.address
  · exact same ▸ own
  · obtain ⟨document, shown⟩ := take_other taken same
    exact (follows address).elsewhere same document shown

/-- All events are taken, and a desk follows them, by induction on the events with the last apart.
-/
theorem exists_follows {events : List EditorEvent}
    (indexable
      : ∀ event ∈ events, ∀ text, event.text? = some text → ∃ index, Index.ofText text = .ok index)
    : ∃ desk : Desk,
        events.foldlM Desk.take {} = .ok desk ∧ ∀ address, desk.Follows events address := by
  induction events using List.reverseRecOn with
  | nil => exact ⟨{}, rfl, follows_nil⟩
  | append_singleton events event ih =>
      obtain ⟨early, last⟩ := List.forall_mem_append.mp indexable
      obtain ⟨desk, taken, follows⟩ := ih early
      obtain ⟨next, takes, still⟩ := exists_take follows (last event (by simp))
      refine ⟨next, ?_, still⟩
      rw [List.foldlM_append, taken]
      show ([event].foldlM Desk.take desk : Except ReadFault Desk) = _
      rw [List.foldlM_cons, takes]
      rfl

/-- What an editor shows follows from the events it was told of. If every text that the events carry
has an index, they are all taken, in whatever order texts are opened, changed before they are open
or without a new text, closed or opened again. An address is then open if there are events on it
since it was last absent, with the text of the last of them that carried one, or an empty text; its
index is that of the text, and the diagnostics last published for it are those of the index, or none
at all once it is closed. A further event changes neither the entry nor the diagnostics of any other
address. Witness: an event puts or closes its own address; the text it does not carry is the one
that the events before it have left.
-/
theorem shows_last_text {events : List EditorEvent}
    (indexable
      : ∀ event ∈ events, ∀ text, event.text? = some text → ∃ index, Index.ofText text = .ok index)
    : ∃ desk : Desk,
        events.foldlM Desk.take {} = .ok desk
        ∧ (∀ address, desk.Follows events address)
        ∧ ∀ event next other,
            desk.take event = .ok next
            → other ≠ event.address
            → next.editor.document? other = desk.editor.document? other
              ∧ next.shown? other = desk.shown? other := by
  obtain ⟨desk, taken, follows⟩ := exists_follows indexable
  exact ⟨desk, taken, follows, fun _ _ _ taken apart => take_other taken apart⟩

/-- A text that is changed before it is open and closed twice, beside one whose last change brings
no text.
-/
theorem shows_text_of_earlier_change
    : let events : List EditorEvent := [
        .changed "b" [], .opened "a" "( 1".toList, .changed "a" [")".toList, "2 x".toList],
        .closed "b", .closed "b", .changed "a" []]
      ∃ (desk : Desk) (index : Index),
        events.foldlM Desk.take {} = .ok desk
        ∧ desk.editor.document? "a" = some ⟨"2 x".toList, index⟩
        ∧ desk.shown? "a" = some index.diagnostics
        ∧ desk.editor.document? "b" = none
        ∧ desk.shown? "b" = some [] := by
  intro events
  have opened : ∃ index, Index.ofText "( 1".toList = .ok index :=
    Index.exists_ofText_of_isSome (by cbv)
  have changed : ∃ index, Index.ofText "2 x".toList = .ok index :=
    Index.exists_ofText_of_isSome (by cbv)
  obtain ⟨desk, taken, follows, _⟩ := @shows_last_text events
    (by simpa [events, EditorEvent.text?] using And.intro opened changed)
  have left : lastText (recent "a" events) = "2 x".toList := by
    simp only [events]
    cbv
  have closed : recent "b" events = [] := by
    simp only [events]
    cbv
  have isOpen : recent "a" events ≠ [] := by
    intro none
    simp [none, lastText] at left
  obtain ⟨index, _, document, shown⟩ := (follows "a").present isOpen
  obtain ⟨absent, cleared, _⟩ := (follows "b").absent closed
  rw [left] at document
  exact ⟨desk, index, taken, document, shown, absent,
    cleared ⟨.closed "b", by simp [events], rfl⟩⟩

end Desk

end StackText
