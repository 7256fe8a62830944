import MiniLisp.Proofs.Evaluation.Outcomes
import MiniLisp.Locate

/-!
# Where errors come from

The path of an error and the paths of its frames make a trail from the form that was evaluated to
the culprit: every path leads to a part of its form, every frame but the innermost goes on at the
head of a call, and what stands at the end of the trail is what the cause speaks of. A trail grows
at its outer end, by a step to a child or by the entry into a body.
-/

namespace MiniLisp

namespace Value

def child? : Value → Int → Option Value
  | .list vs, i => if 0 ≤ i then vs[i.toNat]? else none
  | _, _ => none

/-- The part of a form that a path leads to, if every step of it stays inside a list. -/
def descend? (v : Value) : Path → Option Value
  | [] => some v
  | i :: path => (v.child? i).bind fun w => w.descend? path

/-- The values are children of the form, from child `k` on. -/
def ChildrenFrom (form : Value) (k : Int) : List Value → Prop
  | [] => True
  | v :: vs => form.child? k = some v ∧ form.ChildrenFrom (k + 1) vs

theorem child?_natCast (vs : List Value) (k : Nat) : (Value.list vs).child? k = vs[k]? := by
  simp only [child?, Int.natCast_nonneg, ite_true, Int.toNat_natCast]

theorem childrenFrom_append (before vs : List Value) :
    (Value.list (before ++ vs)).ChildrenFrom before.length vs := by
  induction vs generalizing before with
  | nil => trivial
  | cons v vs ih =>
    refine ⟨?_, ?_⟩
    · rw [child?_natCast, List.getElem?_append_right (Nat.le_refl _), Nat.sub_self,
        List.getElem?_cons_zero]
    · have h := ih (before ++ [v])
      rw [List.append_assoc, List.singleton_append, List.length_append] at h
      exact h

theorem childrenFrom_operands (head : Value) (operands : List Value) :
    (Value.list (head :: operands)).ChildrenFrom 1 operands :=
  childrenFrom_append [head] operands

theorem ChildrenFrom.child {form : Value} {k : Int} {vs : List Value}
    (h : form.ChildrenFrom k vs) (j : Nat) (hj : j < vs.length) :
    form.child? (k + j) = some vs[j] := by
  induction vs generalizing k j with
  | nil => cases hj
  | cons v vs ih =>
    cases j with
    | zero =>
      rw [Int.natCast_zero, Int.add_zero]
      exact h.1
    | succ j =>
      have hk : k + ((j + 1 : Nat) : Int) = k + 1 + j := by omega
      rw [hk]
      exact ih h.2 j (Nat.lt_of_succ_lt_succ hj)

theorem descend?_append (v : Value) (p q : Path) :
    v.descend? (p ++ q) = (v.descend? p).bind fun w => w.descend? q := by
  induction p generalizing v with
  | nil => rfl
  | cons i p ih =>
    simp only [List.cons_append, descend?, ih]
    cases v.child? i <;> rfl

theorem descend?_of_child? {v w : Value} {i : Int} (h : v.child? i = some w) (p : Path) :
    v.descend? (i :: p) = w.descend? p := by
  rw [descend?, h, Option.bind_some]

theorem eq_list_of_wrapped? {mark : Symbol} {v w : Value} (h : v.wrapped? mark = some w) :
    v = .list [.symbol mark, w] := by
  unfold wrapped? at h
  split at h
  · split at h
    · rename_i hs
      cases h
      rw [hs]
    · cases h
  · cases h

end Value

/-- What the cause of an error says of the part of a form that it points at, where `full` tells for
which calls a body was refused. An internal cause and the exhaustion of the interpreter point at
nothing, and a value that cannot be applied is never part of the form in which it was applied. -/
def EvalCause.Blames (ctx : Context) (full : Value → Prop) (culprit : Value) : EvalCause → Prop
  | .unbound name => ∃ s, culprit = .symbol s ∧ ctx.names.nameOf s = name
  | .emptyApplication => culprit = .list []
  | .arity _ rule expected actual => rule.admits expected actual = false ∧
      ∃ items, culprit = .list items ∧ (items.length = actual ∨ items.length = actual + 1)
  | .badDefinition fault => fault = .misplacedRest ∧ culprit = .symbol Symbol.rest
  | .tooDeep limit => limit = ctx.maxDepth ∧
      (∃ head operands, culprit = .list (head :: operands)) ∧ full culprit
  | .typeFault _ => True
  | .notApplicable _ _ | .exhausted | .internal _ => False

/-- A trail from a form along a path and through frames, the outermost first: it ends at a part of
the form, or goes on at the head of a call, in the value that could not be applied or in a body
that was entered. -/
inductive Trail (ctx : Context) (full : Value → Prop) (cause : EvalCause) :
    Value → Path → List Frame → Prop
  | here {form culprit : Value} {path : Path} (hpart : form.descend? path = some culprit)
      (hblames : cause.Blames ctx full culprit) : Trail ctx full cause form path []
  | refused {form head v : Value} {operands : List Value} {path : Path} {name : Option String}
      (hcause : cause = .notApplicable v name)
      (hpart : form.descend? path = some (.list (head :: operands)))
      (hname : calledName ctx head = name) : Trail ctx full cause form (path ++ [0]) [⟨v, [], name⟩]
  | entered {form head : Value} {operands : List Value} {path : Path} {frame : Frame}
      {frames : List Frame} (hpart : form.descend? path = some (.list (head :: operands)))
      (hrest : Trail ctx full cause frame.form frame.path frames) :
      Trail ctx full cause form (path ++ [0]) (frame :: frames)

/-- The error has a trail that begins at the form. -/
def EvalError.Located (ctx : Context) (full : Value → Prop) (form : Value) (e : EvalError) : Prop :=
  Trail ctx full e.cause form e.path e.frames

namespace Trail

variable {ctx : Context} {full : Value → Prop} {cause : EvalCause}

theorem within {form child : Value} {i : Int} (hc : form.child? i = some child) {path : Path}
    {frames : List Frame} (h : Trail ctx full cause child path frames) :
    Trail ctx full cause form (i :: path) frames := by
  cases h with
  | here hpart hblames => exact here ((Value.descend?_of_child? hc _).trans hpart) hblames
  | refused hcause hpart hname =>
    show Trail ctx full cause form ((i :: _) ++ [0]) _
    exact refused hcause ((Value.descend?_of_child? hc _).trans hpart) hname
  | entered hpart hrest =>
    show Trail ctx full cause form ((i :: _) ++ [0]) _
    exact entered ((Value.descend?_of_child? hc _).trans hpart) hrest

theorem leaving {form : Value} {path : Path} {frames : List Frame}
    (h : Trail ctx full cause form path frames) (head : Value) (operands : List Value)
    (label : Option String) :
    Trail ctx full cause (.list (head :: operands)) [0] (⟨form, path, label⟩ :: frames) := by
  show Trail ctx full cause (.list (head :: operands)) ([] ++ [0]) _
  exact entered rfl h

theorem mono {other : Value → Prop} {form : Value} {path : Path} {frames : List Frame}
    (h : Trail ctx full cause form path frames) (hfull : ∀ v, full v → other v) :
    Trail ctx other cause form path frames := by
  induction h with
  | here hpart hblames =>
    refine here hpart ?_
    cases cause with
    | tooDeep limit => exact ⟨hblames.1, hblames.2.1, hfull _ hblames.2.2⟩
    | _ => exact hblames
  | refused hcause hpart hname => exact refused hcause hpart hname
  | entered hpart _ ih => exact entered hpart ih

end Trail

namespace EvalError

variable {ctx : Context} {full : Value → Prop}

theorem located_of {cause : EvalCause} {form : Value} (h : cause.Blames ctx full form) :
    (of cause).Located ctx full form :=
  Trail.here rfl h

theorem Located.within {form child : Value} {i : Int} {e : EvalError}
    (h : e.Located ctx full child) (hc : form.child? i = some child) :
    (e.within i).Located ctx full form :=
  Trail.within hc h

theorem Located.leavingBody {form : Value} {e : EvalError} (h : e.Located ctx full form)
    (head : Value) (operands : List Value) (label : Option String) :
    (e.leavingBody form label).Located ctx full (.list (head :: operands)) :=
  Trail.leaving h head operands label

theorem located_fault (form : Value) (fault : TypeFault) :
    (of (.typeFault fault)).Located ctx full form := by
  have hblames : EvalCause.Blames ctx full form (.typeFault fault) := trivial
  exact located_of hblames

end EvalError

end MiniLisp
