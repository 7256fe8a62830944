import MiniLisp.Proofs.Evaluation.Outcomes
import MiniLisp.Proofs.Evaluation.Template

/-!
# Levels of templates

What a template asks for can be laid out before anything is evaluated: the level of every part
follows from the marks around it, and each mark at level one leaves a hole. The evaluation of the
template is then the evaluation of the operands in the holes, each once and from left to right,
and the filling of the holes with their values.
Main statement: this is how a template is evaluated as long as no hole lies inside a splice mark
that is itself above level one; there the evaluator does not lower the level.
-/

namespace MiniLisp

namespace Eval

variable {α β : Type}

theorem within_bind (i : Int) (x : Eval α) (f : α → Eval β) :
    within i (x >>= f) = (within i x >>= fun a => within i (f a)) := by
  funext m
  change annotate _ (Eval.bind x f) m = Eval.bind (annotate _ x) (fun a => annotate _ (f a)) m
  rw [annotate, Eval.bind, Eval.bind, annotate]
  rcases x m with ⟨a | e | _, m'⟩ <;> rfl

/-- The evaluation of the part of a form that the path leads to. -/
def along (path : Path) (x : Eval α) : Eval α := path.foldr within x

theorem along_append (p q : Path) (x : Eval α) : along (p ++ q) x = along p (along q x) :=
  List.foldr_append

theorem along_bind (path : Path) (x : Eval α) (f : α → Eval β) :
    along path (x >>= f) = (along path x >>= fun a => along path (f a)) := by
  induction path with
  | nil => rfl
  | cons i path ih =>
    change within i (along path (x >>= f)) = _
    rw [ih, within_bind]
    rfl

theorem along_pure (path : Path) (a : α) : along path (pure a) = (pure a : Eval α) := by
  induction path with
  | nil => rfl
  | cons i path ih =>
    change within i (along path (pure a)) = _
    rw [ih]
    rfl

end Eval

/-- A part of a template that is not copied. -/
inductive Hole where
  /-- The operand of an unquote mark, replaced by its value. -/
  | value (expr : Value)
  /-- The operand of a splice mark, replaced by the elements of its value. -/
  | elements (expr : Value)
  /-- A splice mark that is no element of a list. -/
  | stray

/-- A template with its holes; everything else in it is copied. -/
inductive Sketch where
  | copied (v : Value)
  | hole (h : Hole)
  | list (items : List Sketch)

/-- The sketch of an element of a list, given its sketch as a template. -/
def sketchItem (level : Nat) (item : Value) (s : Sketch) : Sketch :=
  match item.wrapped? Symbol.unquoteSplice with
  | some v => if level = 1 then .hole (.elements v) else s
  | none => s

mutual

/-- The sketch of a template at the given level: a nested template raises the level of its
operand, and both unquote marks lower it until they are at level one. -/
def sketch (level : Nat) : Value → Sketch
  | .list [.symbol s, v] =>
    if s = Symbol.quasiquote then .list [.copied (.symbol s), sketch (level + 1) v]
    else if s = Symbol.unquote then
      if level = 1 then .hole (.value v) else .list [.copied (.symbol s), sketch (level - 1) v]
    else if s = Symbol.unquoteSplice then
      if level = 1 then .hole .stray else .list [.copied (.symbol s), sketch (level - 1) v]
    else .list [.copied (.symbol s), sketchItem level v (sketch level v)]
  | .list items => .list (sketchItems level items)
  | v => .copied v

def sketchItems (level : Nat) : List Value → List Sketch
  | [] => []
  | item :: items => sketchItem level item (sketch level item) :: sketchItems level items

end

namespace Sketch

mutual

/-- The holes of a sketch from left to right, each with the path that leads to it, for a sketch
that the given path leads to. -/
def holes (path : Path) : Sketch → List (Path × Hole)
  | .copied _ => []
  | .hole h => [(path, h)]
  | .list items => holesFrom path 0 items

def holesFrom (path : Path) (k : Int) : List Sketch → List (Path × Hole)
  | [] => []
  | s :: items => s.holes (path ++ [k]) ++ holesFrom path (k + 1) items

end

end Sketch

/-- The value of the operand in a hole; for a splice it must be a list. -/
def Hole.eval (ev : Value → Eval Value) : Hole → Eval Value
  | .value expr => Eval.within 1 (ev expr)
  | .elements expr => do
    let x ← Eval.within 1 (ev expr)
    match x with
    | .list vs => pure (.list vs)
    | _ => Eval.within 1 (Eval.fail (.typeFault .spliceNotList))
  | .stray => Eval.fail (.typeFault .spliceOutsideList)

/-- The values of the operands in the holes, each evaluated once and in order. -/
def evalHoles (ev : Value → Eval Value) : List (Path × Hole) → Eval (List Value)
  | [] => pure []
  | (path, h) :: rest => do
    let x ← Eval.along path (h.eval ev)
    let xs ← evalHoles ev rest
    pure (x :: xs)

def Value.elements : Value → List Value
  | .list vs => vs
  | _ => []

namespace Sketch

/-- What an element with the given value contributes to the list around it. -/
def spread (s : Sketch) (x : Value) : List Value :=
  match s with
  | .hole (.elements _) => x.elements
  | _ => [x]

mutual

/-- The copy of a template whose holes get the given values, and the values that are left over. -/
def fill : Sketch → List Value → Value × List Value
  | .copied v, xs => (v, xs)
  | .hole _, [] => (.list [], [])
  | .hole _, x :: xs => (x, xs)
  | .list items, xs => (.list (fillItems items xs).1, (fillItems items xs).2)

def fillItems : List Sketch → List Value → List Value × List Value
  | [], xs => ([], xs)
  | s :: items, xs =>
    let (x, xs) := s.fill xs
    let (vs, xs) := fillItems items xs
    (s.spread x ++ vs, xs)

end

end Sketch

/-- The copy of a template that the path leads to, made after all its holes have been evaluated. -/
def copySketch (ev : Value → Eval Value) (path : Path) (s : Sketch) : Eval Value := do
  let xs ← evalHoles ev (s.holes path)
  pure (s.fill xs).1

namespace Sketch

mutual

/-- The copy of a template, made while its holes are evaluated. -/
def copy (ev : Value → Eval Value) : Sketch → Eval Value
  | .copied v => pure v
  | .hole h => h.eval ev
  | .list items => do
    let vs ← copyFrom ev 0 items
    pure (.list vs)

def copyFrom (ev : Value → Eval Value) (k : Int) : List Sketch → Eval (List Value)
  | [] => pure []
  | s :: items => do
    let x ← Eval.within k (s.copy ev)
    let vs ← copyFrom ev (k + 1) items
    pure (s.spread x ++ vs)

end

variable (ev : Value → Eval Value)

mutual

/-- The holes of a sketch use up their values and leave the others to what follows. -/
theorem evalHoles_holes (path : Path) (s : Sketch) (more : List (Path × Hole))
    (f : Value × List Value → Eval α) :
    (evalHoles ev (s.holes path ++ more) >>= fun xs => f (s.fill xs)) =
      (Eval.along path (s.copy ev) >>= fun x => evalHoles ev more >>= fun xs => f (x, xs)) := by
  match s with
  | .copied v => simp only [holes, List.nil_append, fill, copy, Eval.along_pure, pure_bind]
  | .hole h =>
    rw [holes, List.singleton_append, evalHoles, copy, bind_assoc]
    refine congrArg (Bind.bind _) (funext fun x => ?_)
    rw [bind_assoc]
    rfl
  | .list items =>
    simp only [holes, fill, copy, Eval.along_bind, Eval.along_pure, bind_assoc, pure_bind]
    exact evalHoles_holesFrom path 0 items more fun r => f (.list r.1, r.2)

theorem evalHoles_holesFrom (path : Path) (k : Int) (items : List Sketch)
    (more : List (Path × Hole)) (f : List Value × List Value → Eval α) :
    (evalHoles ev (holesFrom path k items ++ more) >>= fun xs => f (fillItems items xs)) =
      (Eval.along path (copyFrom ev k items) >>= fun vs =>
        evalHoles ev more >>= fun xs => f (vs, xs)) := by
  match items with
  | [] => simp only [holesFrom, List.nil_append, fillItems, copyFrom, Eval.along_pure, pure_bind]
  | s :: items =>
    simp only [holesFrom, List.append_assoc, fillItems, copyFrom, Eval.along_bind,
      Eval.along_pure, bind_assoc, pure_bind]
    rw [evalHoles_holes (path ++ [k]) s (holesFrom path (k + 1) items ++ more)
      fun r => f (s.spread r.1 ++ (fillItems items r.2).1, (fillItems items r.2).2)]
    rw [Eval.along_append]
    refine congrArg (Bind.bind _) (funext fun x => ?_)
    exact evalHoles_holesFrom path (k + 1) items more fun r => f (s.spread x ++ r.1, r.2)

end

theorem copySketch_eq (path : Path) (s : Sketch) :
    copySketch ev path s = Eval.along path (s.copy ev) := by
  have h := evalHoles_holes ev path s [] fun r => pure r.1
  rw [List.append_nil] at h
  exact h.trans (bind_pure _)

end Sketch

section

variable (level : Nat)

theorem sketch_quasiquote (v : Value) :
    sketch level (.list [.symbol Symbol.quasiquote, v]) =
      .list [.copied (.symbol Symbol.quasiquote), sketch (level + 1) v] := rfl

theorem sketch_unquote (v : Value) :
    sketch level (.list [.symbol Symbol.unquote, v]) =
      if level = 1 then .hole (.value v)
      else .list [.copied (.symbol Symbol.unquote), sketch (level - 1) v] := rfl

theorem sketch_splice (v : Value) :
    sketch level (.list [.symbol Symbol.unquoteSplice, v]) =
      if level = 1 then .hole .stray
      else .list [.copied (.symbol Symbol.unquoteSplice), sketch (level - 1) v] := rfl

theorem sketch_list {items : List Value} (h : Unmarked items) :
    sketch level (.list items) = .list (sketchItems level items) := by
  unfold sketch
  split
  · rename_i s v heq
    cases heq
    have hs := h s v rfl
    simp only [templateMarks, List.mem_cons, List.not_mem_nil, or_false, not_or] at hs
    rw [if_neg hs.1, if_neg hs.2.1, if_neg hs.2.2]
    rfl
  · rename_i items' _ heq
    cases heq
    rfl
  · rename_i hlist
    exact absurd rfl (hlist items)

theorem sketch_atom {v : Value} (h : ∀ items, v ≠ .list items) : sketch level v = .copied v := by
  cases v with
  | list items => exact absurd rfl (h items)
  | _ => rfl

/-- Only as an element of a list has a template elements to contribute. -/
theorem spread_sketch (v x : Value) : (sketch level v).spread x = [x] := by
  fun_cases sketch level v <;> rfl

end

/-- No hole of the template lies inside a splice mark that is above level one. -/
inductive Value.HolesOutsideSplices : Nat → Value → Prop
  | quasiquote {level : Nat} {v : Value} (h : HolesOutsideSplices (level + 1) v) :
      HolesOutsideSplices level (.list [.symbol Symbol.quasiquote, v])
  | unquote {level : Nat} {v : Value} (h : level ≠ 1 → HolesOutsideSplices (level - 1) v) :
      HolesOutsideSplices level (.list [.symbol Symbol.unquote, v])
  | splice {level : Nat} {v : Value} (h : level ≠ 1 → (sketch (level - 1) v).holes [] = []) :
      HolesOutsideSplices level (.list [.symbol Symbol.unquoteSplice, v])
  | list {level : Nat} {items : List Value} (hitems : Unmarked items)
      (h : ∀ v ∈ items, HolesOutsideSplices level v) : HolesOutsideSplices level (.list items)
  | atom {level : Nat} {v : Value} (h : ∀ items, v ≠ .list items) : HolesOutsideSplices level v

section

variable (ctx : Context) (ev : Value → Eval Value)

omit ctx in
theorem copy_marked (s : Symbol) (t : Sketch) :
    (Sketch.list [.copied (.symbol s), t]).copy ev = (do
      let x ← Eval.within 1 (t.copy ev)
      pure (.list (.symbol s :: t.spread x))) := by
  simp only [Sketch.copy, Sketch.copyFrom, bind_assoc, pure_bind, List.append_nil]
  rfl

omit ctx ev in
theorem holes_marked (s : Symbol) (t : Sketch) (path : Path) :
    (Sketch.list [.copied (.symbol s), t]).holes path = t.holes (path ++ [1]) := by
  simp only [Sketch.holes, Sketch.holesFrom, List.nil_append, List.append_nil, Int.zero_add]

theorem copy_marked_pure (s : Symbol) {level : Nat} {v : Value}
    (h : (sketch level v).copy ev = pure v) :
    (Sketch.list [.copied (.symbol s), sketch level v]).copy ev =
      pure (.list [.symbol s, v]) := by
  rw [copy_marked, h]
  simp only [spread_sketch]
  rfl

/-- At this level the template has nothing to evaluate, and is copied as it is above it. -/
structure CopiedAbove (ctx : Context) (ev : Value → Eval Value) (level : Nat) (v : Value) :
    Prop where
  sketch : (sketch level v).copy ev = pure v
  template : ∀ above, level < above → (copyTemplate above v).run ctx ev = pure v

theorem run_copyItem_pure {level : Nat} (hlevel : level ≠ 1) {item : Value} {copy : Plan Value}
    (h : copy.run ctx ev = pure item) : (copyItem level item copy).run ctx ev = pure [item] := by
  have hcopied : (copy >>= fun x => pure [x] : Plan (List Value)).run ctx ev = pure [item] := by
    rw [Plan.run_bind, h]
    rfl
  unfold copyItem
  split
  · rw [if_neg hlevel]
    exact hcopied
  · exact hcopied

omit ctx ev in
theorem sketchItem_of_holes_nil {level : Nat} {item : Value} {s : Sketch} {path : Path}
    (h : (sketchItem level item s).holes path = []) : sketchItem level item s = s := by
  unfold sketchItem at h ⊢
  split at h
  · split at h
    · cases h
    · rename_i hlevel
      rw [if_neg hlevel]
  · rfl

theorem copiedAbove_items {level : Nat} (hlevel : 1 ≤ level) {items : List Value}
    (hitems : ∀ v ∈ items, ∀ path, (sketch level v).holes path = [] →
      CopiedAbove ctx ev level v)
    {path : Path} {k : Int} (h : Sketch.holesFrom path k (sketchItems level items) = []) :
    Sketch.copyFrom ev k (sketchItems level items) = pure items ∧
      ∀ above, level < above → (copyItems above k items).run ctx ev = pure items := by
  induction items generalizing k with
  | nil => exact ⟨rfl, fun _ _ => rfl⟩
  | cons item items ih =>
    obtain ⟨hitem, hrest⟩ := List.forall_mem_cons.mp hitems
    rw [sketchItems, Sketch.holesFrom, List.append_eq_nil_iff] at h
    have hsame := sketchItem_of_holes_nil h.1
    have hcopied := hitem _ (hsame ▸ h.1)
    obtain ⟨hsketch, htemplate⟩ := ih hrest h.2
    refine ⟨?_, fun above habove => ?_⟩
    · rw [sketchItems, Sketch.copyFrom, hsame, hcopied.sketch, hsketch]
      simp only [spread_sketch]
      rfl
    · have hone : above ≠ 1 := by omega
      rw [copyItems, Plan.run_bind, Plan.run,
        run_copyItem_pure ctx ev hone (hcopied.template above habove)]
      simp only [Plan.run_bind, htemplate above habove]
      rfl

theorem copiedAbove_of_holes_nil {v : Value} {level : Nat} (hlevel : 1 ≤ level) {path : Path}
    (h : (sketch level v).holes path = []) : CopiedAbove ctx ev level v := by
  induction v using Value.templateInduction generalizing level path with
  | marked s hs v ih =>
    simp only [templateMarks, List.mem_cons, List.not_mem_nil, or_false] at hs
    rcases hs with rfl | rfl | rfl
    · rw [sketch_quasiquote, holes_marked] at h
      have hv := ih (Nat.le_add_left 1 level) h
      refine ⟨copy_marked_pure ev _ hv.sketch, fun above habove => ?_⟩
      rw [copyTemplate_quasiquote, Plan.run_bind, Plan.run,
        hv.template (above + 1) (Nat.succ_lt_succ habove)]
      rfl
    · have hone : level ≠ 1 := by
        rintro rfl
        cases h
      rw [sketch_unquote, if_neg hone, holes_marked] at h
      have hv := ih (by omega) h
      refine ⟨?_, fun above habove => ?_⟩
      · rw [sketch_unquote, if_neg hone]
        exact copy_marked_pure ev _ hv.sketch
      · rw [copyTemplate_unquote, if_neg (by omega), Plan.run_bind, Plan.run,
          hv.template (above - 1) (by omega)]
        rfl
    · have hone : level ≠ 1 := by
        rintro rfl
        cases h
      rw [sketch_splice, if_neg hone, holes_marked] at h
      have hv := ih (by omega) h
      refine ⟨?_, fun above habove => ?_⟩
      · rw [sketch_splice, if_neg hone]
        exact copy_marked_pure ev _ hv.sketch
      · rw [copyTemplate_splice, if_neg (by omega), Plan.run_bind, Plan.run,
          run_copyItem_pure ctx ev (by omega) (hv.template above (by omega))]
        rfl
  | list items hitems ih =>
    rw [sketch_list level hitems, Sketch.holes] at h
    have hcopied := copiedAbove_items ctx ev hlevel (fun v hv path => ih v hv hlevel) h
    refine ⟨?_, fun above habove => ?_⟩
    · rw [sketch_list level hitems, Sketch.copy, hcopied.1]
      rfl
    · rw [run_copyTemplate_list above ctx ev hitems, hcopied.2 above habove]
      rfl
  | atom v hv =>
    refine ⟨?_, fun above _ => ?_⟩
    · rw [sketch_atom level hv]
      rfl
    · rw [copyTemplate_atom above hv]
      rfl

/-- The elements of a splice are those of the value in its hole. -/
theorem run_splice (expr : Value) :
    (Plan.within 1 (.eval expr) >>= spliced).run ctx ev
      = (Hole.elements expr).eval ev >>= fun x => pure x.elements := by
  rw [Hole.eval, bind_assoc]
  refine congrArg (Bind.bind _) (funext fun x => ?_)
  cases x <;> rfl

theorem run_copyItem {level : Nat} (item : Value) {copy : Plan Value}
    (h : copy.run ctx ev = (sketch level item).copy ev) :
    (copyItem level item copy).run ctx ev = (do
      let x ← (sketchItem level item (sketch level item)).copy ev
      pure ((sketchItem level item (sketch level item)).spread x)) := by
  have hcopied : (copy >>= fun x => pure [x] : Plan (List Value)).run ctx ev
      = (sketch level item).copy ev >>= fun x => pure ((sketch level item).spread x) := by
    rw [Plan.run_bind, h]
    simp only [spread_sketch]
    rfl
  unfold copyItem sketchItem
  cases item.wrapped? Symbol.unquoteSplice with
  | some v =>
    by_cases hone : level = 1
    · simp only [hone, ite_true]
      exact run_splice ctx ev v
    · simp only [hone, ite_false]
      exact hcopied
  | none => exact hcopied

theorem run_copyItems {level : Nat} {items : List Value}
    (h : ∀ v ∈ items, (copyTemplate level v).run ctx ev = (sketch level v).copy ev) (k : Int) :
    (copyItems level k items).run ctx ev = Sketch.copyFrom ev k (sketchItems level items) := by
  induction items generalizing k with
  | nil => rfl
  | cons item items ih =>
    obtain ⟨hitem, hrest⟩ := List.forall_mem_cons.mp h
    rw [copyItems, Plan.run_bind, Plan.run, run_copyItem ctx ev item hitem]
    simp only [Plan.run_bind, ih hrest, sketchItems, Sketch.copyFrom, Eval.within_bind, bind_assoc]
    rfl

theorem run_copyTemplate {level : Nat} (hlevel : 1 ≤ level) {v : Value}
    (h : v.HolesOutsideSplices level) :
    (copyTemplate level v).run ctx ev = (sketch level v).copy ev := by
  induction h with
  | quasiquote _ ih =>
    rw [copyTemplate_quasiquote, sketch_quasiquote, copy_marked, Plan.run_bind, Plan.run,
      ih (Nat.le_add_left 1 _)]
    simp only [spread_sketch]
    rfl
  | @unquote level v h ih =>
    rw [copyTemplate_unquote, sketch_unquote]
    by_cases hone : level = 1
    · rw [if_pos hone, if_pos hone]
      rfl
    · rw [if_neg hone, if_neg hone, copy_marked, Plan.run_bind, Plan.run, ih hone (by omega)]
      simp only [spread_sketch]
      rfl
  | @splice level v h =>
    rw [copyTemplate_splice, sketch_splice]
    by_cases hone : level = 1
    · rw [if_pos hone, if_pos hone]
      rfl
    · have hv := copiedAbove_of_holes_nil ctx ev (by omega) (h hone)
      rw [if_neg hone, if_neg hone, copy_marked_pure ev _ hv.sketch, Plan.run_bind, Plan.run,
        run_copyItem_pure ctx ev hone (hv.template level (by omega))]
      rfl
  | @list level items hitems _ ih =>
    rw [run_copyTemplate_list level ctx ev hitems, sketch_list level hitems, Sketch.copy,
      run_copyItems ctx ev fun v hv => ih v hv hlevel]
  | @atom level v hv =>
    rw [copyTemplate_atom level hv, sketch_atom level hv]
    rfl

end

/-- A quasiquotation evaluates the operands in the holes of its template, each once and from left
to right, and puts their values into the copy of the template. -/
theorem quasiquote_fills_levels {ctx : Context} {fuel : Nat} {head t : Value} {m m' : Machine}
    (hhead : evaluate ctx fuel head m = (.value (.special .quasiquote), m'))
    (ht : t.HolesOutsideSplices 1) :
    evaluate ctx (fuel + 1) (.list [head, t]) m =
      copySketch (evaluate ctx fuel) [1] (sketch 1 t) m' := by
  have hf : Eval.within 0 (evaluate ctx fuel head) m = (.value (.special .quasiquote), m') := by
    rw [Eval.within, Eval.annotate, hhead]
  have happly : evaluate ctx (fuel + 1) (.list [head, t]) m =
      Eval.within 1 ((copyTemplate 1 t).run ctx (evaluate ctx fuel)) m' := Eval.bind_value hf _
  rw [happly, run_copyTemplate ctx _ (Nat.le_refl 1) ht, Sketch.copySketch_eq]
  rfl

/-- Splices at levels one and two, and an unquote that belongs to the outer template. -/
def nestedTemplate : Value :=
  .list [.list [.symbol Symbol.unquoteSplice, .list [.native .list, .bool true, .bool false]],
    .list [.symbol Symbol.quasiquote,
      .list [.list [.symbol Symbol.unquoteSplice, .string "kept"],
        .list [.symbol Symbol.unquote,
          .list [.symbol Symbol.unquote, .list [.native .list, .string "filled"]]]]]]

theorem nestedTemplate_holesOutsideSplices : nestedTemplate.HolesOutsideSplices 1 := by
  have hitems : ∀ {v w : Value}, (∀ s, v ≠ .symbol s) → Unmarked [v, w] := fun hv s u heq => by
    cases heq
    exact absurd rfl (hv s)
  refine .list (hitems fun s => nofun)
    (List.forall_mem_cons.mpr ⟨.splice fun h => absurd rfl h, ?_⟩)
  refine List.forall_mem_singleton.mpr (.quasiquote (.list (hitems fun s => nofun) ?_))
  refine List.forall_mem_cons.mpr ⟨.splice fun _ => rfl, List.forall_mem_singleton.mpr ?_⟩
  exact .unquote fun _ => .unquote fun h => absurd rfl h

theorem quasiquote_fills_levels_nested :
    nestedTemplate.HolesOutsideSplices 1 ∧
    evaluate .bare 4 (.list [.special .quasiquote, nestedTemplate])
        ⟨Environment.empty, 0, []⟩ =
      copySketch (evaluate .bare 3) [1] (sketch 1 nestedTemplate)
        ⟨Environment.empty, 0, []⟩ ∧
    (evaluate .bare 4 (.list [.special .quasiquote, nestedTemplate])
        ⟨Environment.empty, 0, []⟩).1 =
      .value (.list [.bool true, .bool false,
        .list [.symbol Symbol.quasiquote,
          .list [.list [.symbol Symbol.unquoteSplice, .string "kept"],
            .list [.symbol Symbol.unquote, .list [.string "filled"]]]]]) :=
  ⟨nestedTemplate_holesOutsideSplices,
    quasiquote_fills_levels rfl nestedTemplate_holesOutsideSplices, rfl⟩

/-- A hole inside a splice mark at level two. -/
def splicedTemplate : Value :=
  .list [.symbol Symbol.quasiquote,
    .list [.symbol Symbol.unquoteSplice,
      .list [.symbol Symbol.unquote, .list [.native .list, .string "filled"]]]]

/-- The evaluator does not reach that hole: it copies the operand of a splice mark above level one
at the level of the mark. -/
theorem nested_splice_not_filled :
    evaluate .bare 4 (.list [.special .quasiquote, splicedTemplate])
        ⟨Environment.empty, 0, []⟩ ≠
      copySketch (evaluate .bare 3) [1] (sketch 1 splicedTemplate)
        ⟨Environment.empty, 0, []⟩ := by
  intro h
  have hcopied : (evaluate .bare 4 (.list [.special .quasiquote, splicedTemplate])
      ⟨Environment.empty, 0, []⟩).1 = .value splicedTemplate := rfl
  have hfilled : (copySketch (evaluate .bare 3) [1] (sketch 1 splicedTemplate)
      ⟨Environment.empty, 0, []⟩).1 = .value (.list [.symbol Symbol.quasiquote,
        .list [.symbol Symbol.unquoteSplice, .list [.string "filled"]]]) := rfl
  rw [h, hfilled] at hcopied
  cases hcopied

end MiniLisp
