import MiniLisp.Proofs.Evaluation.Trail

/-!
# Places and parts

The place that a path has in the text of a form is the text of the part that it leads to. The walk
along a path goes on as long as it stays inside lists, so it ends at the part whether or not the
path has been used up.
Main statement: `locate_agrees_with_printing`.
-/

namespace MiniLisp

theorem Value.split?_of_child? {v w : Value} {i : Int} (h : v.child? i = some w) :
    ∃ before after, v.split? i = some (before, w, after) := by
  unfold child? at h
  split at h
  · rename_i vs
    split at h
    · rename_i hi
      obtain ⟨hlt, hw⟩ := List.getElem?_eq_some_iff.mp h
      refine ⟨vs.take i.toNat, vs.drop (i.toNat + 1), ?_⟩
      simp only [split?, if_neg (Int.not_lt.mpr hi), List.drop_eq_getElem_cons hlt, hw]
    · cases h
  · cases h

theorem Value.child?_eq_none_iff {v : Value} {i : Int} :
    v.child? i = none ↔ ∀ items, v = .list items → ¬ (0 ≤ i ∧ i < items.length) := by
  cases v with
  | list vs =>
    have hin : (∀ items, Value.list vs = .list items → ¬ (0 ≤ i ∧ i < items.length)) ↔
        ¬ (0 ≤ i ∧ i < vs.length) := by
      refine ⟨fun h => h vs rfl, fun h items heq => ?_⟩
      cases heq
      exact h
    rw [hin, child?]
    split
    · rw [List.getElem?_eq_none_iff]
      omega
    · simp only [true_iff]
      omega
  | _ => simp only [child?, reduceCtorEq, false_implies, implies_true]

theorem Value.split?_of_child?_none {v : Value} {i : Int} (h : v.child? i = none) :
    v.split? i = none := by
  rw [child?_eq_none_iff] at h
  cases v with
  | list vs =>
    have hout := h vs rfl
    unfold split?
    simp only
    split
    · rfl
    · rw [List.drop_eq_nil_of_le (by omega)]
  | _ => rfl

section

variable {v w : Value} {i : Int} (path : Path)

theorem Value.part_of_child? (h : v.child? i = some w) : v.part (i :: path) = w.part path := by
  obtain ⟨before, after, hs⟩ := split?_of_child? h
  rw [part, hs]

theorem Value.part_of_child?_none (h : v.child? i = none) : v.part (i :: path) = v := by
  rw [part, split?_of_child?_none h]

end

/-- The walk along a path ends at the part; what is left of the path, if anything, begins with a
step that leaves the part. -/
theorem Value.descend?_part (v : Value) (path : Path) :
    ∃ taken left, path = taken ++ left ∧ v.descend? taken = some (v.part path) ∧
      ∀ i rest, left = i :: rest → (v.part path).child? i = none := by
  induction path generalizing v with
  | nil => exact ⟨[], [], rfl, rfl, fun i rest h => nomatch h⟩
  | cons i path ih =>
    cases hc : v.child? i with
    | some w =>
      obtain ⟨taken, left, hpath, hwalk, hstop⟩ := ih w
      rw [part_of_child? path hc]
      exact ⟨i :: taken, left, congrArg (i :: ·) hpath, (descend?_of_child? hc taken).trans hwalk,
        hstop⟩
    | none =>
      rw [part_of_child?_none path hc]
      refine ⟨[], i :: path, rfl, rfl, fun j rest h => ?_⟩
      cases h
      exact hc

theorem Value.part_of_descend? {v part : Value} {path : Path} (h : v.descend? path = some part) :
    v.part path = part := by
  induction path generalizing v with
  | nil => exact Option.some.inj h
  | cons i path ih =>
    obtain ⟨w, hw, hpart⟩ := Option.bind_eq_some_iff.mp h
    rw [part_of_child? path hw, ih hpart]

namespace Located

theorem highlighted_whole (text : List Char) : (whole text).highlighted = text := by
  simp only [whole, highlighted, List.take_length, List.drop_zero]

theorem highlighted_surround (before after : List Char) (l : Located)
    (h : l.stop ≤ l.text.length) : (l.surround before after).highlighted = l.highlighted := by
  simp only [surround, highlighted]
  rw [List.append_assoc, List.take_length_add_append, List.drop_append,
    List.drop_eq_nil_of_le (Nat.le_add_right _ _), List.nil_append, Nat.add_sub_cancel_left,
    List.take_append_of_le_length h]

end Located

theorem stop_locate_le (names : Naming) (v : Value) (path : Path) :
    (locate names v path).stop ≤ (locate names v path).text.length := by
  induction path generalizing v with
  | nil => exact Nat.le_refl _
  | cons i path ih =>
    unfold locate
    split
    · rename_i before w after _
      have hw := ih w
      simp only [Located.surround, List.length_append]
      omega
    · exact Nat.le_refl _

theorem start_locate_le (names : Naming) (v : Value) (path : Path) :
    (locate names v path).start ≤ (locate names v path).stop := by
  induction path generalizing v with
  | nil => exact Nat.zero_le _
  | cons i path ih =>
    unfold locate
    split
    · rename_i before w after _
      exact Nat.add_le_add_left (ih w) _
    · exact Nat.zero_le _

/-- Whatever the path, what is marked is the text of the part that it leads to. -/
theorem highlighted_locate_part (names : Naming) (v : Value) (path : Path) :
    (locate names v path).highlighted = (v.part path).chars names := by
  induction path generalizing v with
  | nil => exact Located.highlighted_whole _
  | cons i path ih =>
    unfold locate Value.part
    split
    · rename_i before w after _
      rw [Located.highlighted_surround _ _ _ (stop_locate_le names w path), ih w]
    · exact Located.highlighted_whole _

/-- A path that leads to a part of the form has the text of that part as its place. -/
theorem highlighted_locate {names : Naming} {v part : Value} {path : Path}
    (h : v.descend? path = some part) :
    (locate names v path).highlighted = part.chars names := by
  rw [highlighted_locate_part, Value.part_of_descend? h]

/-- Places agree with printing, for every form and every path: the text is the printed form, the
bounds lie in it in order, and what they enclose is the printed part at which the walk along the
path ends, which is before the first step that would leave the lists of the form. -/
theorem locate_agrees_with_printing (names : Naming) (v : Value) (path : Path) :
    (locate names v path).text = v.chars names ∧
    (locate names v path).start ≤ (locate names v path).stop ∧
    (locate names v path).stop ≤ (locate names v path).text.length ∧
    ∃ part taken left, path = taken ++ left ∧ v.descend? taken = some part ∧
      (∀ i rest, left = i :: rest →
        ∀ items, part = .list items → ¬ (0 ≤ i ∧ i < items.length)) ∧
      (locate names v path).highlighted = part.chars names := by
  obtain ⟨taken, left, hpath, hwalk, hstop⟩ := v.descend?_part path
  refine ⟨text_locate names v path, start_locate_le names v path, stop_locate_le names v path,
    v.part path, taken, left, hpath, hwalk, ?_, highlighted_locate_part names v path⟩
  exact fun i rest h => Value.child?_eq_none_iff.mp (hstop i rest h)

end MiniLisp
