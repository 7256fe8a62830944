import MiniLisp.Evaluation.Quasiquote

/-!
# The shape of templates

A template is a mark with its operand, any other list, or no list. Induction over templates has
these cases, and there is one equation for what the copy of a template is in each of them.
-/

namespace MiniLisp

namespace Eval

instance : LawfulMonad Eval :=
  LawfulMonad.mk' Eval
    (fun x => by
      funext m
      change Eval.bind x Eval.pure m = x m
      rw [Eval.bind]
      rcases x m with ⟨a | e | _, m'⟩ <;> rfl)
    (fun a f => rfl)
    (fun x f g => by
      funext m
      change Eval.bind (Eval.bind x f) g m = Eval.bind x (fun a => Eval.bind (f a) g) m
      rw [Eval.bind, Eval.bind, Eval.bind]
      rcases x m with ⟨a | e | _, m'⟩ <;> rfl)

end Eval

/-- The symbols that mark a template, when they head a list of two elements. -/
def templateMarks : List Symbol := [Symbol.quasiquote, Symbol.unquote, Symbol.unquoteSplice]

/-- The list is no mark with an operand. -/
def Unmarked (items : List Value) : Prop := ∀ s v, items = [.symbol s, v] → s ∉ templateMarks

theorem unmarked_or_marked (items : List Value) :
    Unmarked items ∨ ∃ s v, items = [.symbol s, v] ∧ s ∈ templateMarks := by
  by_cases h : ∃ s v, items = [.symbol s, v] ∧ s ∈ templateMarks
  · exact .inr h
  · exact .inl fun s v hitems hs => h ⟨s, v, hitems, hs⟩

theorem Unmarked.wrapped? {items : List Value} (h : Unmarked items) {mark : Symbol}
    (hmark : mark ∈ templateMarks) : (Value.list items).wrapped? mark = none := by
  unfold Value.wrapped?
  split
  · rename_i s v heq
    cases heq
    exact if_neg fun hs : s = mark => h s v rfl (hs ▸ hmark)
  · rfl

@[elab_as_elim]
theorem Value.templateInduction {P : Value → Prop}
    (marked : ∀ s ∈ templateMarks, ∀ v, P v → P (.list [.symbol s, v]))
    (list : ∀ items, Unmarked items → (∀ v ∈ items, P v) → P (.list items))
    (atom : ∀ v, (∀ items, v ≠ .list items) → P v) (v : Value) : P v := by
  cases v with
  | list items =>
    have ih : ∀ w ∈ items, P w := fun w hw => Value.templateInduction marked list atom w
    rcases unmarked_or_marked items with h | ⟨s, v, rfl, hs⟩
    · exact list items h ih
    · exact marked s hs v (ih v (List.mem_cons_of_mem _ List.mem_cons_self))
  | _ => exact atom _ fun items h => nomatch h
termination_by sizeOf v
decreasing_by
  have := List.sizeOf_lt_of_mem hw
  simp only [Value.list.sizeOf_spec]
  omega

variable (level : Nat)

theorem copyTemplate_quasiquote (v : Value) :
    copyTemplate level (.list [.symbol Symbol.quasiquote, v]) = (do
      let x ← Plan.within 1 (copyTemplate (level + 1) v)
      pure (.list [.symbol Symbol.quasiquote, x])) := by
  rw [copyTemplate, if_neg (by decide), if_pos rfl]

theorem copyTemplate_unquote (v : Value) :
    copyTemplate level (.list [.symbol Symbol.unquote, v]) =
      if level = 1 then Plan.within 1 (.eval v)
      else (do
        let x ← Plan.within 1 (copyTemplate (level - 1) v)
        pure (.list [.symbol Symbol.unquote, x])) := by
  rw [copyTemplate, if_pos rfl]

theorem copyTemplate_splice (v : Value) :
    copyTemplate level (.list [.symbol Symbol.unquoteSplice, v]) =
      if level = 1 then Plan.fail (.typeFault .spliceOutsideList)
      else (do
        let xs ← Plan.within 1 (copyItem level v (copyTemplate level v))
        pure (.list (.symbol Symbol.unquoteSplice :: xs))) := by
  rw [copyTemplate, if_neg (by decide), if_neg (by decide)]
  simp only [true_and]

theorem copyTemplate_pair {s : Symbol} (h : s ∉ templateMarks) (v : Value) :
    copyTemplate level (.list [.symbol s, v]) = (do
      let xs ← Plan.within 1 (copyItem level v (copyTemplate level v))
      pure (.list (.symbol s :: xs))) := by
  simp only [templateMarks, List.mem_cons, List.not_mem_nil, or_false, not_or] at h
  rw [copyTemplate, if_neg h.2.1, if_neg h.1, if_neg fun hs => h.2.2 hs.1]

theorem copyTemplate_items {items : List Value} (h : ∀ s v, items ≠ [.symbol s, v]) :
    copyTemplate level (.list items) = (do
      let xs ← copyItems level 0 items
      pure (.list xs)) := by
  rw [copyTemplate]
  exact h

theorem copyTemplate_atom {v : Value} (h : ∀ items, v ≠ .list items) :
    copyTemplate level v = pure v := by
  cases v with
  | list items => exact absurd rfl (h items)
  | _ => rfl

/-- A pair that is no mark is copied like any other list. -/
theorem run_copyTemplate_list (ctx : Context) (ev : Value → Eval Value) {items : List Value}
    (h : Unmarked items) :
    (copyTemplate level (.list items)).run ctx ev
      = (copyItems level 0 items).run ctx ev >>= fun xs => pure (.list xs) := by
  by_cases hpair : ∃ s v, items = [.symbol s, v]
  · obtain ⟨s, v, rfl⟩ := hpair
    have hcopied : (copyItems level 0 [.symbol s, v]).run ctx ev
        = Eval.within 0 (pure [.symbol s]) >>= fun xs =>
          (Eval.within 1 ((copyItem level v (copyTemplate level v)).run ctx ev) >>= fun ys =>
            pure [] >>= fun rest => pure (ys ++ rest)) >>= fun rest => pure (xs ++ rest) := rfl
    have hsymbol : (Eval.within 0 (pure [.symbol s]) : Eval (List Value)) = pure [.symbol s] := rfl
    rw [copyTemplate_pair level (h s v rfl), hcopied, hsymbol]
    simp only [bind_assoc, pure_bind, List.append_nil, List.singleton_append]
    rfl
  · rw [copyTemplate_items level fun s v hs => hpair ⟨s, v, hs⟩]
    rfl

end MiniLisp
