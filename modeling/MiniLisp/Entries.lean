/-!
# Entries

What a dictionary holds, as a list of keys with their values in the order in which the keys came.
-/

namespace MiniLisp

section

variable {κ ν : Type} [DecidableEq κ]

/-- The entries with `k` bound to `v`: in its place if it is bound, at the end if not. -/
def putEntry (k : κ) (v : ν) : List (κ × ν) → List (κ × ν)
  | [] => [(k, v)]
  | (l, w) :: rest => if l = k then (l, v) :: rest else (l, w) :: putEntry k v rest

def valueOf? (k : κ) : List (κ × ν) → Option ν
  | [] => none
  | (l, w) :: rest => if l = k then some w else valueOf? k rest

theorem valueOf?_putEntry (k l : κ) (v : ν) (es : List (κ × ν)) :
    valueOf? l (putEntry k v es) = if k = l then some v else valueOf? l es := by
  induction es with
  | nil => simp only [putEntry, valueOf?]
  | cons e es ih =>
    obtain ⟨i, w⟩ := e
    simp only [putEntry]
    by_cases hi : i = k
    · subst hi
      simp only [ite_true, valueOf?]
      split <;> rfl
    · simp only [hi, ite_false, valueOf?, ih]
      by_cases hl : i = l
      · have hkl : ¬ k = l := fun h => hi (hl.trans h.symm)
        simp only [hl, hkl, ite_true, ite_false]
      · simp only [hl, ite_false]

theorem length_putEntry {k : κ} {es : List (κ × ν)} (v : ν) (h : valueOf? k es = none) :
    (putEntry k v es).length = es.length + 1 := by
  induction es with
  | nil => rfl
  | cons e es ih =>
    obtain ⟨l, w⟩ := e
    rw [valueOf?] at h
    split at h
    · cases h
    · rename_i hl
      rw [putEntry, if_neg hl, List.length_cons, List.length_cons, ih h]

theorem mem_putEntry {k : κ} {v : ν} {es : List (κ × ν)} {e : κ × ν} (h : e ∈ putEntry k v es) :
    e ∈ es ∨ e = (k, v) := by
  induction es with
  | nil => exact .inr (List.mem_singleton.mp h)
  | cons e' es ih =>
    obtain ⟨l, w⟩ := e'
    rw [putEntry] at h
    split at h
    · rename_i hl
      subst hl
      exact (List.mem_cons.mp h).elim .inr fun h => .inl (List.mem_cons_of_mem _ h)
    · rcases List.mem_cons.mp h with rfl | h
      · exact .inl List.mem_cons_self
      · exact (ih h).imp_left (List.mem_cons_of_mem _)

theorem mem_of_valueOf? {k : κ} {v : ν} {es : List (κ × ν)} (h : valueOf? k es = some v) :
    (k, v) ∈ es := by
  induction es with
  | nil => cases h
  | cons e es ih =>
    obtain ⟨l, w⟩ := e
    rw [valueOf?] at h
    split at h
    · rename_i hl
      cases h
      rw [hl]
      exact List.mem_cons_self
    · exact List.mem_cons_of_mem _ (ih h)

end

end MiniLisp
