import Mathlib
import StackText.Proofs.Number.IntegerText
import StackText.Proofs.Value.QuotedString
import StackText.Proofs.Value.StructuralText

/-! The text of a pair tells the pair. A value inside a pair shows by its first character whether it
is a pair, a string or neither, and shows where it ends: an atom at the next mark, a string at the
first quote that is not doubled.
-/

namespace StackText

theorem Builtin.word_injective {a b : Builtin} (same : a.word = b.word)
    : a = b := by
  have found (b : Builtin) : all.find? (·.word = b.word) = some b := by cases b <;> decide
  have alike := found a
  rw [same, found b] at alike
  exact (Option.some.inj alike).symm

theorem Text.decimalInt_injective {m n : Int} (same : decimalInt m = decimalInt n)
    : m = n := by
  have parts := Numeral.splitSign_decimalInt m
  rw [same, Numeral.splitSign_decimalInt] at parts
  obtain ⟨sign, digits⟩ := Prod.mk.inj parts
  have size := congrArg Text.ofDigits digits
  simp only [Text.ofDigits_toDigits] at size
  simp only [decide_eq_decide] at sign
  omega

/-- More doubled text is not taken for the quote at its end, by the quote or other character that
follows.
-/
theorem Fenced.doubled_cons_ne {quote : Char} {rest : List Char}
    (ends : ∀ c ∈ rest.head?, c ≠ quote) (d : Char) (text rest' : List Char)
    : doubled quote (d :: text) ++ rest' ≠ quote :: rest := by
  intro same
  rw [doubled] at same
  split at same
  · next quotes =>
      obtain ⟨_, again⟩ := List.cons.inj same
      exact ends d (again ▸ rfl) quotes
  · next other => exact other (List.cons.inj same).1

/-- Doubled quotes end only at a quote that no other follows, by induction on the text. -/
theorem Fenced.doubled_unique {quote : Char} {text other rest rest' : List Char}
    (ends : ∀ c ∈ rest.head?, c ≠ quote) (ends' : ∀ c ∈ rest'.head?, c ≠ quote)
    (same : doubled quote text ++ quote :: rest = doubled quote other ++ quote :: rest')
    : text = other ∧ rest = rest' := by
  induction text generalizing other with
  | nil =>
      cases other with
      | nil => exact ⟨rfl, (List.cons.inj same).2⟩
      | cons d other => exact absurd same.symm (doubled_cons_ne ends d other _)
  | cons c text ih =>
      cases other with
      | nil => exact absurd same (doubled_cons_ne ends' c text _)
      | cons d other =>
          simp only [doubled] at same
          split at same <;> split at same
          · next first second =>
              obtain ⟨rfl, later⟩ := ih (List.cons.inj (List.cons.inj same).2).2
              exact ⟨by rw [first, second], later⟩
          · next first second => exact absurd ((List.cons.inj same).1.symm.trans first) second
          · next first second => exact absurd ((List.cons.inj same).1.trans second) first
          · obtain ⟨rfl, later⟩ := ih (List.cons.inj same).2
            exact ⟨by rw [(List.cons.inj same).1], later⟩

namespace Value

/-- (v.Bare) holds of the atoms without quotes that their text tells: nil, integers, builtins, and
functions with a slot of their own.
-/
def Bare : Value → Prop
  | .nil | .int _ | .builtin _ => True
  | .func f => f.id.isSome = true
  | _ => False

/-- (v.Legible) holds if all leaves of the value are strings or bare atoms. -/
def Legible : Value → Prop
  | .str _ => True
  | .pair _ l r => l.Legible ∧ r.Legible
  | v => v.Bare

/-- (Alike v w) holds if the values are the same tree with the same leaves, where functions are the
same if they have the same slot.
-/
inductive Alike : Value → Value → Prop
  | nil
    : Alike .nil .nil
  | int (n : Int)
    : Alike (.int n) (.int n)
  | str (text : String)
    : Alike (.str text) (.str text)
  | builtin (b : Builtin)
    : Alike (.builtin b) (.builtin b)
  | func {f g : Function} (slot : f.id = g.id)
    : Alike (.func f) (.func g)
  | pair {m n : Nat} {l l' r r' : Value} (left : Alike l l') (right : Alike r r')
    : Alike (.pair m l r) (.pair n l' r')

-----------------------------------------------------------------------------------------
-- Atoms
-----------------------------------------------------------------------------------------

/-- The characters that stand around the values inside a pair. -/
def isMark (c : Char) : Bool := c = ' ' || c = '(' || c = ')' || c = '\x22'

theorem isMark_of_isDigit {c : Char} (digit : c.isDigit = true)
    : isMark c = false := by
  rw [← Bool.not_eq_true]
  intro mark
  simp only [isMark, Bool.or_eq_true, decide_eq_true_eq] at mark
  rcases mark with ((rfl | rfl) | rfl) | rfl <;> cases digit

theorem isMark_decimal {n : Nat} {c : Char} (member : c ∈ Nat.toDigits 10 n)
    : isMark c = false :=
  isMark_of_isDigit (List.all_eq_true.mp (Text.all_isDigit_toDigits n) c member)

theorem toList_magic (b : Builtin)
    : (Value.builtin b).atomText.toList = "<magic:".toList ++ b.word.toList ++ ['>'] := by
  simp [atomText]

theorem toList_text {f : Function} {id : Nat} (slot : f.id = some id)
    : f.text.toList = "<func:".toList ++ Nat.toDigits 10 id ++ ['>'] := by
  simp only [Function.text, slot, String.toList_append, Nat.toString_eq_repr, Nat.toList_repr]
  rfl

/-- The text of a bare atom is a word. -/
theorem Bare.atomText_word {v : Value} (bare : v.Bare)
    : v.atomText.toList ≠ [] ∧ ∀ c ∈ v.atomText.toList, isMark c = false := by
  cases v with
  | nil => exact ⟨by decide, by simp [atomText, isMark]⟩
  | int n =>
      refine ⟨Text.decimalInt_ne_nil n, ?_⟩
      intro c member
      rcases Text.mem_decimalInt member with rfl | digit
      · rfl
      · exact isMark_of_isDigit digit
  | builtin b =>
      have text : (Value.builtin b).atomText.toList = _ := toList_magic b
      have word : b.word.toList.all (!isMark ·) = true := by cases b <;> rfl
      rw [text, List.forall_mem_append, List.forall_mem_append]
      exact ⟨by simp, ⟨by simp [isMark], by simpa using word⟩, by simp [isMark]⟩
  | func f =>
      obtain ⟨id, slot⟩ := Option.isSome_iff_exists.mp bare
      have text : (Value.func f).atomText.toList = _ := toList_text slot
      rw [text, List.forall_mem_append, List.forall_mem_append]
      exact ⟨by simp, ⟨by simp [isMark], fun _ => isMark_decimal⟩, by simp [isMark]⟩
  | _ => exact bare.elim

/-- The type of the bare atom that a word stands for, by its first characters. -/
def wordType : List Char → ValueType
  | 'n' :: _ => .nil
  | '<' :: 'm' :: _ => .builtin
  | '<' :: 'f' :: _ => .func
  | _ => .int

theorem Bare.wordType_atomText {v : Value} (bare : v.Bare)
    : wordType v.atomText.toList = v.type := by
  cases v with
  | nil => rfl
  | int n =>
      have start (c : Char) (rest : List Char) (text : (Value.int n).atomText.toList = c :: rest)
          : c = '-' ∨ c.isDigit = true :=
        Text.mem_decimalInt (text ▸ List.mem_cons_self)
      rw [wordType.eq_def]
      split
      · next text => rcases start _ _ text with sign | digit <;> contradiction
      · next text => rcases start _ _ text with sign | digit <;> contradiction
      · next text => rcases start _ _ text with sign | digit <;> contradiction
      · rfl
  | builtin b => rw [toList_magic]; rfl
  | func f =>
      obtain ⟨id, slot⟩ := Option.isSome_iff_exists.mp bare
      have text : (Value.func f).atomText.toList = _ := toList_text slot
      rw [text]
      rfl
  | _ => exact bare.elim

/-- Bare atoms with the same text are alike. -/
theorem Bare.alike {v w : Value} (first : v.Bare) (second : w.Bare)
    (same : v.atomText = w.atomText)
    : Alike v w := by
  have type : v.type = w.type := by
    rw [← first.wordType_atomText, ← second.wordType_atomText, same]
  cases v with
  | nil =>
      cases w with
      | nil => exact .nil
      | _ => cases type
  | int m =>
      cases w with
      | int n => exact Text.decimalInt_injective same ▸ .int m
      | _ => cases type
  | builtin a =>
      cases w with
      | builtin b =>
          have texts := congrArg String.toList same
          rw [toList_magic, toList_magic] at texts
          have words := List.append_cancel_left (List.append_cancel_right texts)
          exact Builtin.word_injective (String.toList_inj.mp words) ▸ .builtin a
      | _ => cases type
  | func f =>
      cases w with
      | func g =>
          obtain ⟨i, slot⟩ := Option.isSome_iff_exists.mp first
          obtain ⟨j, slot'⟩ := Option.isSome_iff_exists.mp second
          have texts : f.text.toList = g.text.toList := congrArg String.toList same
          rw [toList_text slot, toList_text slot'] at texts
          have digits := List.append_cancel_left (List.append_cancel_right texts)
          have id : i = j := by simpa using congrArg Text.ofDigits digits
          exact .func (by rw [slot, slot', id])
      | _ => cases type
  | _ => exact first.elim

-----------------------------------------------------------------------------------------
-- Trees
-----------------------------------------------------------------------------------------

/-- (EndsValue rest) holds if a value inside a pair may end in front of the text. -/
def EndsValue (rest : List Char) : Prop := ∀ c ∈ rest.head?, c = ' ' ∨ c = ')'

/-- A word ends at the next mark. -/
theorem EndsValue.takeWhile_word {word rest : List Char} (ends : EndsValue rest)
    (free : ∀ c ∈ word, isMark c = false)
    : (word ++ rest).takeWhile (!isMark ·) = word := by
  rw [List.takeWhile_append_of_pos (by simpa using free)]
  cases rest with
  | nil => simp
  | cons c rest => rcases ends c rfl with rfl | rfl <;> simp [isMark]

theorem Bare.spelledInside_eq {v : Value} (bare : v.Bare)
    : v.spelledInside = v.atomText := by
  cases v with
  | pair | str => exact bare.elim
  | _ => rfl

theorem toList_spelledInside_str (text : String)
    : (Value.str text).spelledInside.toList
      = '\x22' :: (Fenced.doubled '\x22' text.toList ++ ['\x22']) := by
  rw [spelledInside, enclosed, quoteString_eq, String.toList_ofList]
  rfl

theorem toList_spelledInside_pair (serial : Nat) (l r : Value)
    : (Value.pair serial l r).spelledInside.toList
      = '(' :: (l.spelledInside.toList
          ++ ' ' :: '.' :: ' ' :: (r.spelledInside.toList ++ [')'])) := by
  simp [spelledInside_pair]

/-- The mark that a value inside a pair starts with. A bare atom has none. -/
def opening : Value → Option Char
  | .pair .. => some '('
  | .str _ => some '\x22'
  | _ => none

theorem Legible.bare {v : Value} (legible : v.Legible) (word : v.opening = none)
    : v.Bare := by
  cases v with
  | pair | str => cases word
  | _ => exact legible

/-- The first character of a value inside a pair tells whether it is a pair, a string or bare. -/
theorem Legible.opening_eq {v : Value} (legible : v.Legible) (rest : List Char)
    : (v.spelledInside.toList ++ rest).head?.filter isMark = v.opening := by
  cases word : v.opening with
  | none =>
      have bare := legible.bare word
      obtain ⟨nonempty, free⟩ := bare.atomText_word
      obtain ⟨c, later, text⟩ := List.exists_cons_of_ne_nil nonempty
      rw [bare.spelledInside_eq, text]
      simp [free c (text ▸ List.mem_cons_self)]
  | some mark =>
      cases v with
      | pair serial l r => cases word; rw [toList_spelledInside_pair]; rfl
      | str text => cases word; rw [toList_spelledInside_str]; rfl
      | _ => cases word

theorem Legible.opening_of_append {v w : Value} (first : v.Legible) (second : w.Legible)
    {rest rest' : List Char}
    (same : v.spelledInside.toList ++ rest = w.spelledInside.toList ++ rest')
    : v.opening = w.opening := by
  rw [← first.opening_eq rest, ← second.opening_eq rest', same]

/-- A bare atom is told by its text together with where it ends. -/
theorem Bare.alike_of_append {v w : Value} (first : v.Bare) (second : w.Bare)
    {rest rest' : List Char} (ends : EndsValue rest) (ends' : EndsValue rest')
    (same : v.atomText.toList ++ rest = w.atomText.toList ++ rest')
    : Alike v w ∧ rest = rest' := by
  have words := congrArg (List.takeWhile (!isMark ·)) same
  rw [ends.takeWhile_word first.atomText_word.2, ends'.takeWhile_word second.atomText_word.2]
    at words
  rw [words] at same
  exact ⟨first.alike second (String.toList_inj.mp words), List.append_cancel_left same⟩

/-- Inside a pair a value is told by its text together with where it ends, by induction on the
value.
-/
theorem Legible.alike_of_append {v w : Value} (first : v.Legible) (second : w.Legible)
    {rest rest' : List Char} (ends : EndsValue rest) (ends' : EndsValue rest')
    (same : v.spelledInside.toList ++ rest = w.spelledInside.toList ++ rest')
    : Alike v w ∧ rest = rest' := by
  induction v generalizing w rest rest' with
  | pair m l r left right =>
      have marks := first.opening_of_append second same
      cases w with
      | pair n l' r' =>
          obtain ⟨firstLeft, firstRight⟩ := first
          obtain ⟨secondLeft, secondRight⟩ := second
          simp only [toList_spelledInside_pair, List.cons_append, List.append_assoc,
            List.nil_append] at same
          obtain ⟨alikeLeft, point⟩ :=
            left firstLeft secondLeft (by simp [EndsValue]) (by simp [EndsValue])
              (List.cons.inj same).2
          simp only [List.cons.injEq, true_and] at point
          obtain ⟨alikeRight, close⟩ :=
            right firstRight secondRight (by simp [EndsValue]) (by simp [EndsValue]) point
          exact ⟨.pair alikeLeft alikeRight, (List.cons.inj close).2⟩
      | _ => cases marks
  | str text =>
      have marks := first.opening_of_append second same
      cases w with
      | str other =>
          have noQuote {rest : List Char} (ends : EndsValue rest)
              : ∀ c ∈ rest.head?, c ≠ '\x22' := by
            intro c head
            rcases ends c head with rfl | rfl <;> decide
          simp only [toList_spelledInside_str, List.cons_append, List.append_assoc,
            List.nil_append] at same
          obtain ⟨texts, rests⟩ :=
            Fenced.doubled_unique (noQuote ends) (noQuote ends') (List.cons.inj same).2
          exact ⟨String.toList_inj.mp texts ▸ .str text, rests⟩
      | _ => cases marks
  | _ =>
      have marks := first.opening_of_append second same
      have bare := second.bare marks.symm
      rw [bare.spelledInside_eq] at same
      exact Bare.alike_of_append first bare ends ends' same

/-- Values that are alike have the same text, by induction on the likeness. -/
theorem Alike.spelledInside_eq {v w : Value} (alike : Alike v w)
    : v.spelledInside = w.spelledInside := by
  induction alike with
  | nil | int | str | builtin => rfl
  | @func f g slot =>
      show f.text = g.text
      rw [Function.text, Function.text, slot]
  | pair _ _ left right => rw [spelledInside_pair, spelledInside_pair, left, right]

/-- Pairs whose leaves are nil, integers, strings, builtins and functions with a slot have the same
text exactly if they are the same tree with the same leaves.
-/
theorem render_pair_eq_iff {m n : Nat} {l l' r r' : Value} (first : (Value.pair m l r).Legible)
    (second : (Value.pair n l' r').Legible)
    : (Value.pair m l r).render = (Value.pair n l' r').render
      ↔ Alike (.pair m l r) (.pair n l' r') := by
  rw [render_of_ne_str (by simp), render_of_ne_str (by simp)]
  constructor
  · intro same
    have texts := congrArg (String.toList · ++ []) same
    exact (first.alike_of_append second (by simp [EndsValue]) (by simp [EndsValue]) texts).1
  · exact Alike.spelledInside_eq

/-- A string that spells the end of one half and the start of the other is told from two strings.
Pairs made at different times have the same text if their functions share a slot.
-/
theorem render_pair_of_misleading_string
    : let one : Value := .pair 0 (.str "a\" . (\"b") .nil
      let two : Value := .pair 0 (.str "a") (.pair 1 (.str "b") .nil)
      let early : Value := .pair 2 (.func ⟨{}, some 7, .slot 7⟩) (.int (-1))
      let late : Value := .pair 3 (.func ⟨{}, some 7, .serial 5⟩) (.int (-1))
      one.Legible ∧ two.Legible ∧ one.render ≠ two.render ∧ early.render = late.render := by
  intro one two early late
  have first : one.Legible := ⟨trivial, trivial⟩
  have second : two.Legible := ⟨trivial, trivial, trivial⟩
  refine ⟨first, second, ?_, ?_⟩
  · intro same
    cases (render_pair_eq_iff first second).mp same with
    | pair left right => cases right
  · have third : early.Legible := ⟨rfl, trivial⟩
    have fourth : late.Legible := ⟨rfl, trivial⟩
    exact (render_pair_eq_iff third fourth).mpr (.pair (.func rfl) (.int (-1)))

end Value

end StackText
