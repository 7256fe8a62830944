import MiniLisp.Proofs.Evaluation.Fuel
import MiniLisp.Proofs.Evaluation.MacroFree
import MiniLisp.Proofs.Evaluation.Template

/-!
# Templates as expressions that build lists

A template without templates inside it says the same as an expression that quotes what is copied
and puts lists together from the lists of their elements.
Main statement: the quasiquotation of a template and its builder yield the same values and leave
the same machines.
-/

namespace MiniLisp

/-- The expression for the list of what an element of a template contributes, given the expression
that builds the element. -/
def itemBuilder (item expr : Value) : Value :=
  match item.wrapped? Symbol.unquoteSplice with
  | some spliced => spliced
  | none => .list [.native .list, expr]

mutual

/-- The expression that builds what a template stands for. -/
def builder (v : Value) : Value :=
  match v.wrapped? Symbol.unquote with
  | some expr => expr
  | none => match v with
    | .list items => .list (.native .concat :: itemBuilders items)
    | v => .list [.special .quote, v]

def itemBuilders : List Value → List Value
  | [] => []
  | item :: items => itemBuilder item (builder item) :: itemBuilders items

end

/-- No quasiquotation stands in the template, outside of what its marks apply to. -/
inductive Value.Unnested : Value → Prop
  | unquote (v : Value) : Unnested (.list [.symbol Symbol.unquote, v])
  | splice (v : Value) : Unnested (.list [.symbol Symbol.unquoteSplice, v])
  | list {items : List Value} (hitems : Unmarked items) (h : ∀ v ∈ items, Unnested v) :
      Unnested (.list items)
  | atom {v : Value} (h : ∀ items, v ≠ .list items) : Unnested v

theorem builder_list {items : List Value} (h : Unmarked items) :
    builder (.list items) = .list (.native .concat :: itemBuilders items) := by
  rw [builder, h.wrapped? (by decide)]

theorem builder_atom {v : Value} (h : ∀ items, v ≠ .list items) :
    builder v = .list [.special .quote, v] := by
  cases v with
  | list items => exact absurd rfl (h items)
  | _ => rfl

namespace Plan

variable {ctx : Context} {m m' : Machine}

/-- The head of such a call is its own value. -/
theorem yields_call {head a : Value} {operands : List Value}
    (hhead : step ctx head = Pure.pure head) (hname : calledName ctx head = none) :
    (eval (.list (head :: operands))).Yields ctx m a m' ↔
      (applyValue ctx none operands head).Yields ctx m a m' := by
  rw [yields_eval]
  change (do
    let f ← within 0 (eval head)
    applyValue ctx (calledName ctx head) operands f : Plan Value).Yields ctx m a m' ↔ _
  simp only [yields_bind, yields_within, yields_eval, hhead, yields_pure, hname]
  constructor
  · rintro ⟨_, _, ⟨rfl, rfl⟩, h⟩
    exact h
  · exact fun h => ⟨_, _, ⟨rfl, rfl⟩, h⟩

theorem yields_quote {v a : Value} :
    (eval (.list [.special .quote, v])).Yields ctx m a m' ↔ v = a ∧ m = m' :=
  (yields_call rfl rfl).trans yields_pure

theorem yields_evalEach_cons {k : Int} {v : Value} {vs xs : List Value} :
    (evalEach k (v :: vs)).Yields ctx m xs m' ↔ ∃ x m₁ rest,
      (eval v).Yields ctx m x m₁ ∧ (evalEach (k + 1) vs).Yields ctx m₁ rest m' ∧
        xs = x :: rest := by
  rw [evalEach]
  simp only [yields_bind, yields_within, yields_pure]
  constructor
  · rintro ⟨x, m₁, hx, rest, _, hrest, rfl, rfl⟩
    exact ⟨x, m₁, rest, hx, hrest, rfl⟩
  · rintro ⟨x, m₁, rest, hx, hrest, rfl⟩
    exact ⟨x, m₁, hx, rest, m', hrest, rfl, rfl⟩

/-- A native function with a rest parameter alone gets the list of all its arguments. -/
theorem yields_applyNative {n : Native} (hn : n = .list ∨ n = .concat) {operands : List Value}
    {a : Value} :
    (applyNative n operands).Yields ctx m a m' ↔
      ∃ args, (evalEach 1 operands).Yields ctx m args m' ∧ n.run [.list args] = .ok a := by
  have hbind : bindOperands n.params operands true n.describe = (do
      ofExcept (.ok ())
      let args ← evalEach 1 operands
      Pure.pure (n.params.pair args)) := by rcases hn with rfl | rfl <;> rfl
  have hpair : ∀ args, (n.params.pair args).map Prod.snd = [.list args] := by
    rcases hn with rfl | rfl <;> exact fun _ => rfl
  rw [applyNative, hbind]
  simp only [yields_bind, yields_ofExcept, yields_pure]
  constructor
  · rintro ⟨_, _, ⟨_, _, ⟨_, rfl⟩, args, _, hargs, rfl, rfl⟩, hrun, rfl⟩
    exact ⟨args, hargs, hpair args ▸ hrun⟩
  · rintro ⟨args, hargs, hrun⟩
    exact ⟨_, m', ⟨(), m, ⟨trivial, rfl⟩, args, m', hargs, rfl, rfl⟩, (hpair args).symm ▸ hrun,
      rfl⟩

theorem yields_native {n : Native} (hn : n = .list ∨ n = .concat) {operands : List Value}
    {a : Value} :
    (eval (.list (.native n :: operands))).Yields ctx m a m' ↔
      ∃ args, (evalEach 1 operands).Yields ctx m args m' ∧ n.run [.list args] = .ok a :=
  (yields_call rfl rfl).trans (yields_applyNative hn)

theorem yields_singleton {expr a : Value} :
    (eval (.list [.native .list, expr])).Yields ctx m a m' ↔
      ∃ x, (eval expr).Yields ctx m x m' ∧ a = .list [x] := by
  rw [yields_native (.inl rfl)]
  simp only [yields_evalEach_cons]
  constructor
  · rintro ⟨_, ⟨x, m₁, rest, hx, hrest, rfl⟩, hrun⟩
    obtain ⟨rfl, rfl⟩ := yields_pure.mp hrest
    cases hrun
    exact ⟨x, hx, rfl⟩
  · rintro ⟨x, hx, rfl⟩
    exact ⟨[x], ⟨x, m', [], hx, yields_pure.mpr ⟨rfl, rfl⟩, rfl⟩, rfl⟩

theorem yields_concat {exprs : List Value} {a : Value} :
    (eval (.list (.native .concat :: exprs))).Yields ctx m a m' ↔
      ∃ vss : List (List Value), (evalEach 1 exprs).Yields ctx m (vss.map Value.list) m' ∧
        a = .list vss.flatten := by
  rw [yields_native (.inr rfl)]
  constructor
  · rintro ⟨args, hargs, hrun⟩
    obtain ⟨vss, hvss, rfl⟩ := ok_of_map hrun
    exact ⟨vss, eq_map_of_collect Value.eq_list_of_asList hvss ▸ hargs, rfl⟩
  · rintro ⟨vss, hargs, rfl⟩
    have hcollect : collect Value.asList 1 (vss.map Value.list) = .ok vss :=
      collect_map (fun vs => show Value.asList (.list vs) = .ok vs from rfl) 1 vss
    refine ⟨_, hargs, ?_⟩
    rw [Native.run, hcollect]
    rfl

/-- The copy of the template and its builder yield the same. -/
def SameYield (ctx : Context) (t : Value) : Prop :=
  ∀ {m a m'}, (copyTemplate 1 t).Yields ctx m a m' ↔ (eval (builder t)).Yields ctx m a m'

theorem yields_spliced {v : Value} {vs : List Value} :
    (spliced v).Yields ctx m vs m' ↔ v = .list vs ∧ m = m' := by
  cases v with
  | list items => simp only [spliced, yields_pure, Value.list.injEq]
  | _ =>
    refine yields_within.trans (yields_ofExcept.trans ?_)
    simp only [reduceCtorEq, false_and]

theorem yields_copyItem {item : Value}
    (h : item.wrapped? Symbol.unquoteSplice = none → SameYield ctx item) {vs : List Value} :
    (copyItem 1 item (copyTemplate 1 item)).Yields ctx m vs m' ↔
      (eval (itemBuilder item (builder item))).Yields ctx m (.list vs) m' := by
  unfold copyItem itemBuilder
  cases hitem : item.wrapped? Symbol.unquoteSplice with
  | some expr =>
    simp only [ite_true, yields_bind, yields_within, yields_spliced]
    constructor
    · rintro ⟨_, _, hx, rfl, rfl⟩
      exact hx
    · exact fun hx => ⟨_, _, hx, rfl, rfl⟩
  | none =>
    simp only [yields_bind, yields_pure, yields_singleton, h hitem]
    constructor
    · rintro ⟨x, _, hx, rfl, rfl⟩
      exact ⟨x, hx, rfl⟩
    · rintro ⟨x, hx, hvs⟩
      cases hvs
      exact ⟨x, m', hx, rfl, rfl⟩

theorem yields_copyItems {items : List Value}
    (h : ∀ v ∈ items, v.wrapped? Symbol.unquoteSplice = none → SameYield ctx v) {j k : Int}
    {m m' : Machine} {vs : List Value} :
    (copyItems 1 j items).Yields ctx m vs m' ↔
      ∃ vss : List (List Value), (evalEach k (itemBuilders items)).Yields ctx m (vss.map .list) m' ∧
        vs = vss.flatten := by
  induction items generalizing j k m m' vs with
  | nil =>
    simp only [copyItems, itemBuilders, evalEach, yields_pure, List.nil_eq, List.map_eq_nil_iff]
    constructor
    · rintro ⟨rfl, rfl⟩
      exact ⟨[], ⟨rfl, rfl⟩, rfl⟩
    · rintro ⟨_, ⟨rfl, rfl⟩, rfl⟩
      exact ⟨rfl, rfl⟩
  | cons item items ih =>
    obtain ⟨hitem, hrest⟩ := List.forall_mem_cons.mp h
    rw [copyItems, itemBuilders]
    simp only [yields_bind, yields_within, yields_pure, yields_copyItem hitem,
      yields_evalEach_cons, ih hrest (k := k + 1)]
    constructor
    · rintro ⟨xs, m₁, hxs, _, _, ⟨vss, hvss, rfl⟩, rfl, rfl⟩
      exact ⟨xs :: vss, ⟨.list xs, m₁, vss.map .list, hxs, hvss, rfl⟩, rfl⟩
    · rintro ⟨vss, ⟨x, m₁, rest, hx, hrest, hvss⟩, rfl⟩
      cases vss with
      | nil => cases hvss
      | cons xs vss =>
        rw [List.map_cons, List.cons.injEq] at hvss
        obtain ⟨rfl, rfl⟩ := hvss
        exact ⟨xs, m₁, hx, _, m', ⟨vss, hrest, rfl⟩, rfl, rfl⟩

theorem yields_congr {p q : Plan α} (h : ∀ ev, p.run ctx ev = q.run ctx ev) {a : α} :
    p.Yields ctx m a m' ↔ q.Yields ctx m a m' := by
  simp only [Yields, h]

theorem yields_copyTemplate_list {items : List Value} (hitems : Unmarked items) {a : Value} :
    (copyTemplate 1 (.list items)).Yields ctx m a m' ↔
      ∃ vs, (copyItems 1 0 items).Yields ctx m vs m' ∧ a = .list vs := by
  have hrun : ∀ ev, (copyTemplate 1 (.list items)).run ctx ev =
      (do
        let vs ← copyItems 1 0 items
        Pure.pure (.list vs) : Plan Value).run ctx ev :=
    fun ev => run_copyTemplate_list 1 ctx ev hitems
  rw [yields_congr hrun]
  simp only [yields_bind, yields_pure]
  constructor
  · rintro ⟨vs, _, hvs, rfl, rfl⟩
    exact ⟨vs, hvs, rfl⟩
  · rintro ⟨vs, hvs, rfl⟩
    exact ⟨vs, m', hvs, rfl, rfl⟩

theorem sameYield {t : Value} (ht : t.Unnested) (hsplice : t.wrapped? Symbol.unquoteSplice = none) :
    SameYield ctx t := by
  induction ht with
  | unquote v =>
    intro m a m'
    rw [copyTemplate, if_pos rfl, if_pos rfl, yields_within]
    rfl
  | splice v => cases hsplice
  | @list items hitems _ ih =>
    intro m a m'
    rw [yields_copyTemplate_list hitems, builder_list hitems, yields_concat]
    simp only [yields_copyItems ih (k := 1)]
    constructor
    · rintro ⟨_, ⟨vss, hvss, rfl⟩, rfl⟩
      exact ⟨vss, hvss, rfl⟩
    · rintro ⟨vss, hvss, rfl⟩
      exact ⟨_, ⟨vss, hvss, rfl⟩, rfl⟩
  | @atom v hv =>
    intro m a m'
    rw [copyTemplate_atom 1 hv, builder_atom hv, yields_pure, yields_quote]

end Plan

/-- A template without templates inside it, and the expression that builds lists as the template
says, yield the same values and leave the same machines, in every machine and with any limit of
depth. -/
theorem quasiquote_yields_as_builder {t : Value} (ht : t.Unnested)
    (hsplice : t.wrapped? Symbol.unquoteSplice = none) (ctx : Context) (m m' : Machine)
    (v : Value) :
    (∃ fuel, evaluate ctx fuel (.list [.special .quasiquote, t]) m = (.value v, m')) ↔
      ∃ fuel, evaluate ctx fuel (builder t) m = (.value v, m') := by
  have h : (Plan.eval (.list [.special .quasiquote, t])).Yields ctx m v m' ↔
      (Plan.eval (builder t)).Yields ctx m v m' := by
    rw [Plan.yields_call rfl rfl]
    change (Plan.within 1 (copyTemplate 1 t)).Yields ctx m v m' ↔ _
    rw [Plan.yields_within, Plan.sameYield ht hsplice]
  exact h

/-- A template with a splice, an unquoted definition and a list that only looks like a mark. -/
def definingTemplate : Value :=
  .list [.list [.symbol Symbol.unquoteSplice, .list [.native .list, .bool true, .bool false]],
    .list [.symbol Symbol.unquote, .list [.special .define, .symbol Symbol.rest, .string "x"]],
    .list [.symbol Symbol.unquote]]

theorem definingTemplate_unnested : definingTemplate.Unnested := by
  refine .list (fun s v h => nomatch h) (List.forall_mem_cons.mpr ⟨.splice _, ?_⟩)
  refine List.forall_mem_cons.mpr ⟨.unquote _, List.forall_mem_singleton.mpr ?_⟩
  exact .list (fun s v h => nomatch h) (List.forall_mem_singleton.mpr (.atom nofun))

theorem quasiquote_yields_as_builder_defining :
    definingTemplate.Unnested ∧ definingTemplate.wrapped? Symbol.unquoteSplice = none ∧
    ∃ fuel, evaluate ⟨fun _ => none, 1, fun _ => true⟩ fuel (builder definingTemplate)
        ⟨Environment.empty, 0, []⟩ =
      (.value (.list [.bool true, .bool false, .string "x", .list [.symbol Symbol.unquote]]),
        ⟨Environment.empty.define Symbol.rest (.string "x"), 0, []⟩) :=
  ⟨definingTemplate_unnested, rfl,
    (quasiquote_yields_as_builder definingTemplate_unnested rfl _ _ _ _).mp ⟨4, rfl⟩⟩

end MiniLisp
