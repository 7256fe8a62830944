import MiniLisp.EvalError
import MiniLisp.Value.Printer

/-!
# Places in printed forms

A path leads from a form to one of its parts, as far as it stays inside lists. The place of the
part is where its text stands in the text of the form. Main statement: the text found is the text
of the form.
-/

namespace MiniLisp

/-- The children of a list before child `i`, the child itself, and those after it. -/
def Value.split? (v : Value) (i : Int) : Option (List Value × Value × List Value) :=
  match v with
  | .list vs =>
    if i < 0 then none
    else match vs.drop i.toNat with
      | [] => none
      | w :: after => some (vs.take i.toNat, w, after)
  | _ => none

/-- The part of a form that a path leads to; a step that leaves the form ends the path. -/
def Value.part (v : Value) : Path → Value
  | [] => v
  | i :: path => match v.split? i with
    | some (_, w, _) => w.part path
    | none => v

structure Located where
  text : List Char
  start : Nat
  stop : Nat

namespace Located

def whole (text : List Char) : Located := ⟨text, 0, text.length⟩

/-- The place, with more text before and after. -/
def surround (before after : List Char) (l : Located) : Located :=
  ⟨before ++ l.text ++ after, before.length + l.start, before.length + l.stop⟩

def highlighted (l : Located) : List Char := (l.text.take l.stop).drop l.start

end Located

def leadingChars (names : Naming) (vs : List Value) : List Char :=
  vs.flatMap fun v => v.chars names ++ [' ']

/-- The text of a form and the place of the part that a path leads to. -/
def locate (names : Naming) (v : Value) : Path → Located
  | [] => Located.whole (v.chars names)
  | i :: path => match v.split? i with
    | some (before, w, after) =>
      (locate names w path).surround ('(' :: leadingChars names before)
        (Value.tailChars names after ++ [')'])
    | none => Located.whole (v.chars names)

theorem spaced_append_cons (names : Naming) (before : List Value) (w : Value)
    (after : List Value) :
    Text.spaced ((before ++ w :: after).map (Value.chars names))
      = leadingChars names before ++ w.chars names ++ Value.tailChars names after := by
  induction before with
  | nil =>
    simp only [List.nil_append, leadingChars, List.flatMap_nil]
    exact Value.spaced_cons names w after
  | cons v vs ih =>
    have hne : ∃ x xs, vs ++ w :: after = x :: xs := by
      cases vs with
      | nil => exact ⟨w, after, rfl⟩
      | cons x xs => exact ⟨x, xs ++ w :: after, rfl⟩
    obtain ⟨x, xs, hx⟩ := hne
    simp only [List.cons_append, leadingChars, List.flatMap_cons, List.append_assoc] at ih ⊢
    rw [hx] at ih ⊢
    rw [List.map_cons, List.map_cons, Text.spaced_cons_cons, ← List.map_cons, ih]
    simp only [List.nil_append]

theorem split?_eq_some {v w : Value} {i : Int} {before after : List Value}
    (h : v.split? i = some (before, w, after)) : v = .list (before ++ w :: after) := by
  unfold Value.split? at h
  cases v with
  | list vs =>
    simp only at h
    split at h
    · cases h
    · split at h
      · cases h
      · rename_i hd
        cases h
        rw [← hd, List.take_append_drop]
  | _ => cases h

/-- Whatever the path, the text found is the text of the form. -/
theorem text_locate (names : Naming) (v : Value) (path : Path) :
    (locate names v path).text = v.chars names := by
  induction path generalizing v with
  | nil => rfl
  | cons i path ih =>
    unfold locate
    split
    · rename_i before w after hs
      rw [split?_eq_some hs, Value.chars_list, spaced_append_cons]
      simp only [Located.surround, ih]
      simp only [List.cons_append, List.append_assoc]
    · rfl

end MiniLisp
