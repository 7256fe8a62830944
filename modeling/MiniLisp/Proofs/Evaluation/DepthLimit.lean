import MiniLisp.Interpreter
import MiniLisp.Proofs.Evaluation.Culprit

/-!
# The limit on active bodies

With a limit on the active bodies an evaluation is what it is without one, up to the first moment in
which it would enter one body too many, and there it ends.
Main statement: `depth_limit_cuts_off`.
-/

namespace MiniLisp

/-- Another body is about to be entered while `k` bodies are active. -/
def Moment.attempts (k : Nat) (mo : Moment) : Bool := mo.entering && mo.bodies == k

/-- A property of the moments of an evaluation that begins with `n` active bodies, which passes from
the parts of the evaluation to the whole. -/
structure MomentsClosed (limit : Int) (Q : Nat → List Moment → Prop) : Prop where
  idle : ∀ n form, Q n [⟨form, n, 0, false⟩]
  ended : ∀ n, Q n []
  append : ∀ n l l', Q n l → Q n l' → Q n (l ++ l')
  refused : ∀ (n : Nat) form, limit ≠ 0 → limit ≤ n → Q n [⟨form, n, 0, true⟩]
  entered : ∀ (n : Nat) form l, ¬ (limit ≠ 0 ∧ limit ≤ n) → Q (n + 1) l →
    Q n (⟨form, n, 0, true⟩ :: l)
  expansion : ∀ n l, Q n l → Q n (l.map Moment.inExpansion)

namespace MomentsClosed

variable (ctx : Context) {Q : Nat → List Moment → Prop} (hQ : MomentsClosed ctx.maxDepth Q)
include hQ

theorem plan {ev : Value → Eval Value} {inner : Value → Machine → List Moment}
    (hev : ∀ v, Eval.KeepsScopes ctx.closes (ev v)) (hinner : ∀ v m, Q m.callDepth (inner v m))
    (form : Value) (x : Plan α) (m : Machine) :
    Q m.callDepth (x.moments ctx ev inner form m) := by
  induction x generalizing m with
  | bind x f ihx ihf =>
    rw [Plan.moments]
    refine hQ.append _ _ _ (ihx m) ?_
    rcases heq : x.run ctx ev m with ⟨a | e | _, m'⟩
    · -- the rest begins with as many active bodies, for an evaluation keeps their count
      rw [← ((x.keepsScopes ctx hev).value heq).callDepth]
      exact ihf a m'
    · exact hQ.ended _
    · exact hQ.ended _
  | within i x ih => exact ih m
  | eval v => exact hinner v m
  | inScope bindings x ih => exact ih { m with env := m.env.enter bindings }
  | body definition label x ih =>
    simp only [Plan.moments]
    split
    · rename_i hfull
      exact hQ.refused _ _ hfull.1 hfull.2
    · rename_i hroom
      exact hQ.entered _ _ _ hroom (ih { m with callDepth := m.callDepth + 1 })
  | expansion expanded x ih => exact hQ.expansion _ _ (ih m)
  | _ => exact hQ.idle _ _

theorem moments (fuel : Nat) (v : Value) (m : Machine) :
    Q m.callDepth (moments ctx fuel v m) := by
  induction fuel generalizing v m with
  | zero => exact hQ.idle _ _
  | succ fuel ih => exact hQ.plan ctx (keeps_evaluate ctx fuel) ih v (Plan.step ctx v) m

end MomentsClosed

theorem bodies_le_limit (names : Naming) (closes : Nat → Bool) {k : Nat} (hk : 1 ≤ k)
    (fuel : Nat) (v : Value) {m : Machine} (hm : m.callDepth ≤ k) :
    ∀ mo ∈ moments ⟨names, k, closes⟩ fuel v m, mo.bodies ≤ k := by
  have hclosed : MomentsClosed k fun n l => n ≤ k → ∀ mo ∈ l, mo.bodies ≤ k := {
    idle := fun n form hn mo hmo => by rwa [List.mem_singleton.mp hmo]
    ended := fun n hn mo hmo => nomatch hmo
    append := fun n l l' hl hl' hn mo hmo =>
      (List.mem_append.mp hmo).elim (hl hn mo) (hl' hn mo)
    refused := fun n form _ _ hn mo hmo => by rwa [List.mem_singleton.mp hmo]
    entered := fun n form l hroom hl hn mo hmo => by
      rcases List.mem_cons.mp hmo with rfl | hmo
      · exact hn
      · exact hl (by omega) mo hmo
    expansion := fun n l hl hn mo hmo => by
      obtain ⟨mo', hmo', rfl⟩ := List.mem_map.mp hmo
      exact hl hn mo' hmo' }
  exact MomentsClosed.moments ⟨names, k, closes⟩ hclosed fuel v m hm

/-- Without a limit bodies are entered one by one: one is entered in each depth on the way to a
greater depth. -/
theorem attempts_of_deeper (names : Naming) (closes : Nat → Bool) {k k' : Nat} (hk : k ≤ k')
    (fuel : Nat) (v : Value) {m : Machine} (hm : m.callDepth ≤ k)
    (h : (moments ⟨names, 0, closes⟩ fuel v m).any (Moment.attempts k')) :
    (moments ⟨names, 0, closes⟩ fuel v m).any (Moment.attempts k) := by
  have hclosed : MomentsClosed 0 fun n l => n ≤ k → l.any (Moment.attempts k') →
      l.any (Moment.attempts k) := {
    idle := fun n form _ h => by cases h
    ended := fun n _ h => by cases h
    append := fun n l l' hl hl' hn h => by
      rw [List.any_append, Bool.or_eq_true] at h ⊢
      exact h.imp (hl hn) (hl' hn)
    refused := fun n form h => absurd rfl h
    entered := fun n form l _ hl hn h => by
      rw [List.any_cons, Bool.or_eq_true] at h ⊢
      rcases Nat.eq_or_lt_of_le hn with rfl | hlt
      · exact .inl (by simp [Moment.attempts])
      · -- entering from a lower depth is no attempt at `k'`, so the body itself has one
        refine .inr (hl hlt (h.resolve_left fun hat => ?_))
        simp only [Moment.attempts, Bool.true_and, beq_iff_eq] at hat
        omega
    expansion := fun n l hl hn h => by
      rw [List.any_map] at h ⊢
      exact hl hn h }
  exact MomentsClosed.moments ⟨names, 0, closes⟩ hclosed fuel v m hm h

/-- Until it is about to enter a body while `k` bodies are active, an evaluation `x` under the limit
`k` is the unlimited evaluation `y`, and then it fails; the error has been put in a frame for each
body and for each expansion that it has left. -/
structure Follows (k : Nat) (x y : Eval α) (ms : Machine → List Moment) : Prop where
  same : ∀ m, m.callDepth ≤ k → (ms m).find? (Moment.attempts k) = none → x m = y m
  cut : ∀ m mo, m.callDepth ≤ k → (ms m).find? (Moment.attempts k) = some mo →
    ∃ e m', x m = (.error e, m') ∧ e.cause = .tooDeep k ∧
      e.frames.length + m.callDepth = k + mo.expansions

namespace Follows

variable {k : Nat} {x y : Eval α} {ms : Machine → List Moment} {closes : Nat → Bool}

theorem refl (x : Eval α) (form : Value) : Follows k x x fun m => [m.moment form] :=
  ⟨fun _ _ _ => rfl, fun _ _ _ h => nomatch h⟩

theorem bind {f g : α → Eval β} {ns : α → Machine → List Moment} (h : Follows k x y ms)
    (hf : ∀ a, Follows k (f a) (g a) (ns a)) (hy : Eval.KeepsScopes closes y) :
    Follows k (x >>= f) (y >>= g) fun m => ms m ++ Outcome.andThen ns (y m) := by
  refine ⟨fun m hm hnone => ?_, fun m mo hm hsome => ?_⟩
  · rw [List.find?_append, Option.or_eq_none_iff] at hnone
    obtain ⟨hfirst, hrest⟩ := hnone
    -- nothing is attempted in `y`, so the rest begins with the same machine in both
    have hsame := h.same m hm hfirst
    rcases heq : y m with ⟨a | e | _, m'⟩
    · rw [heq] at hsame hrest
      rw [Eval.bind_value hsame, Eval.bind_value heq]
      exact (hf a).same m' ((hy.value heq).callDepth ▸ hm) hrest
    · rw [heq] at hsame
      rw [Eval.bind_error hsame, Eval.bind_error heq]
    · rw [heq] at hsame
      rw [Eval.bind_exhausted hsame, Eval.bind_exhausted heq]
  · rw [List.find?_append, Option.or_eq_some_iff] at hsome
    -- the first attempt is in `y`, or `y` has none and it is in the rest
    rcases hsome with hfirst | ⟨hfirst, hrest⟩
    · obtain ⟨e, m', he, hcut⟩ := h.cut m mo hm hfirst
      exact ⟨e, m', Eval.bind_error he f, hcut⟩
    · have hsame := h.same m hm hfirst
      rcases heq : y m with ⟨a | e | _, m'⟩
      · have hkeeps := (hy.value heq).callDepth
        rw [heq] at hsame hrest
        rw [Eval.bind_value hsame, ← hkeeps]
        exact (hf a).cut m' mo (hkeeps ▸ hm) hrest
      · rw [heq] at hrest
        cases hrest
      · rw [heq] at hrest
        cases hrest

theorem within (h : Follows k x y ms) (i : Int) :
    Follows k (Eval.within i x) (Eval.within i y) ms := by
  refine ⟨fun m hm hnone => ?_, fun m mo hm hsome => ?_⟩
  · simp only [Eval.within, Eval.annotate, h.same m hm hnone]
  · obtain ⟨e, m', he, hcut⟩ := h.cut m mo hm hsome
    exact ⟨e.within i, m', by simp only [Eval.within, Eval.annotate, he], hcut⟩

theorem inScope (h : Follows k x y ms) (hx : Eval.KeepsScopes closes x)
    (bindings : List (Symbol × Value)) :
    Follows k (Eval.inScope closes bindings x) (Eval.inScope closes bindings y)
      fun m => ms { m with env := m.env.enter bindings } := by
  refine ⟨fun m hm hnone => ?_, fun m mo hm hsome => ?_⟩
  · simp only [Eval.inScope, h.same { m with env := m.env.enter bindings } hm hnone]
  · obtain ⟨e, m', he, hcut⟩ := h.cut { m with env := m.env.enter bindings } mo hm hsome
    exact ⟨e, { m' with env := ⟨m.env.inner, m'.env.global⟩ },
      Eval.inScope_closed he rfl (hx.error he).pop_enter, hcut⟩

theorem expansion (h : Follows k x y ms) (form : Value) (label : Option String) :
    Follows k (Eval.leavingBody form label x) (Eval.leavingBody form label y)
      fun m => (ms m).map Moment.inExpansion := by
  refine ⟨fun m hm hnone => ?_, fun m mo hm hsome => ?_⟩
  · rw [List.find?_map, Option.map_eq_none_iff] at hnone
    simp only [Eval.leavingBody, Eval.annotate, h.same m hm hnone]
  · rw [List.find?_map, Option.map_eq_some_iff] at hsome
    obtain ⟨inner, hinner, rfl⟩ := hsome
    obtain ⟨e, m', he, hcause, hframes⟩ := h.cut m inner hm hinner
    refine ⟨e.leavingBody form label, m', by simp only [Eval.leavingBody, Eval.annotate, he],
      hcause, ?_⟩
    have hlen : (e.leavingBody form label).frames.length = e.frames.length + 1 := rfl
    have hmore : inner.inExpansion.expansions = inner.expansions + 1 := rfl
    omega

theorem body (h : Follows k x y ms) (hk : 1 ≤ k) (names : Naming) (closes : Nat → Bool)
    (call form : Value) (label : Option String) :
    Follows k (Eval.counted ⟨names, k, closes⟩ (Eval.leavingBody form label x))
      (Eval.counted ⟨names, 0, closes⟩ (Eval.leavingBody form label y))
      fun m => ⟨call, m.callDepth, 0, true⟩ :: ms { m with callDepth := m.callDepth + 1 } := by
  have hlimit : (k : Int) ≠ 0 := by omega
  refine ⟨fun m hm hnone => ?_, fun m mo hm hsome => ?_⟩
  · rw [List.find?_eq_none, List.forall_mem_cons, ← List.find?_eq_none] at hnone
    obtain ⟨hhere, hnone⟩ := hnone
    have hlt : m.callDepth < k := by
      simp only [Moment.attempts, Bool.true_and, beq_iff_eq] at hhere
      omega
    have hroom : ¬ ((k : Int) ≠ 0 ∧ (k : Int) ≤ m.callDepth) := by omega
    have hsame := h.same { m with callDepth := m.callDepth + 1 } hlt hnone
    rw [Eval.counted_room ⟨names, k, closes⟩ hroom,
      Eval.counted_room ⟨names, 0, closes⟩ fun hfull => hfull.1 rfl]
    simp only [Eval.leavingBody, Eval.annotate, hsame]
  · -- this body is the one that is refused, or there is room for it and the attempt is inside
    rcases Nat.eq_or_lt_of_le hm with heq | hlt
    · rw [List.find?_cons_of_pos (by simp [Moment.attempts, heq])] at hsome
      cases hsome
      refine ⟨EvalError.of (.tooDeep k), m, ?_, rfl, ?_⟩
      · have hfull : (k : Int) ≤ m.callDepth := by omega
        exact Eval.counted_full ⟨names, k, closes⟩ ⟨hlimit, hfull⟩
      · simp only [EvalError.of, List.length_nil, heq]
        omega
    · have hhere : ¬ Moment.attempts k ⟨call, m.callDepth, 0, true⟩ = true := by
        simp only [Moment.attempts, Bool.true_and, beq_iff_eq]
        omega
      rw [List.find?_cons_of_neg hhere] at hsome
      have hroom : ¬ ((k : Int) ≠ 0 ∧ (k : Int) ≤ m.callDepth) := by omega
      obtain ⟨e, m', he, hcause, hframes⟩ :=
        h.cut { m with callDepth := m.callDepth + 1 } mo hlt hsome
      refine ⟨e.leavingBody form label, { m' with callDepth := m'.callDepth - 1 }, ?_, hcause, ?_⟩
      · rw [Eval.counted_room ⟨names, k, closes⟩ hroom]
        simp only [Eval.leavingBody, Eval.annotate, he]
      · have hlen : (e.leavingBody form label).frames.length = e.frames.length + 1 := rfl
        dsimp only at hframes
        omega

end Follows

theorem Plan.follows {k : Nat} (hk : 1 ≤ k) (names : Naming) (closes : Nat → Bool)
    {ev ev' : Value → Eval Value} {inner : Value → Machine → List Moment}
    (hev : ∀ v, Eval.KeepsScopes closes (ev v))
    (hev' : ∀ v, Eval.KeepsScopes closes (ev' v)) (h : ∀ v, Follows k (ev v) (ev' v) (inner v))
    (call : Value) (x : Plan α) :
    Follows k (x.run ⟨names, k, closes⟩ ev) (x.run ⟨names, 0, closes⟩ ev')
      (x.moments ⟨names, 0, closes⟩ ev' inner call) := by
  induction x with
  | bind x f ihx ihf => exact ihx.bind ihf (x.keepsScopes ⟨names, 0, closes⟩ hev')
  | within i x ih => exact ih.within i
  | eval v => exact h v
  | inScope bindings x ih => exact ih.inScope (x.keepsScopes ⟨names, k, closes⟩ hev) bindings
  | body form label x ih =>
    have hmoments : ∀ m, (Plan.body form label x).moments ⟨names, 0, closes⟩ ev' inner call m
        = ⟨call, m.callDepth, 0, true⟩ :: x.moments ⟨names, 0, closes⟩ ev' inner call
          { m with callDepth := m.callDepth + 1 } := fun m => by
      rw [Plan.moments, if_neg fun hfull => hfull.1 rfl]
    rw [funext hmoments]
    exact ih.body hk names closes call form label
  | expansion form x ih => exact ih.expansion form _
  | _ => exact .refl _ call

theorem follows_evaluate {k : Nat} (hk : 1 ≤ k) (names : Naming) (closes : Nat → Bool)
    (fuel : Nat) (v : Value) :
    Follows k (evaluate ⟨names, k, closes⟩ fuel v) (evaluate ⟨names, 0, closes⟩ fuel v)
      (moments ⟨names, 0, closes⟩ fuel v) := by
  induction fuel generalizing v with
  | zero => exact .refl _ v
  | succ fuel ih =>
    exact Plan.follows hk names closes (keeps_evaluate ⟨names, k, closes⟩ fuel)
      (keeps_evaluate ⟨names, 0, closes⟩ fuel) ih v (Plan.step ⟨names, 0, closes⟩ v)

theorem Trail.limit_eq {ctx : Context} {full : Value → Prop} {cause : EvalCause} {form : Value}
    {path : Path} {frames : List Frame} (h : Trail ctx full cause form path frames) {limit : Int}
    (hcause : cause = .tooDeep limit) : limit = ctx.maxDepth := by
  induction h with
  | here _ hblames =>
    rw [hcause] at hblames
    exact hblames.1
  | refused hrefused => cases hrefused.symm.trans hcause
  | entered _ _ ih => exact ih

theorem unlimited_not_tooDeep (names : Naming) (closes : Nat → Bool) (fuel : Nat) (v : Value)
    (m : Machine) {k : Nat} (hk : 1 ≤ k) {e : EvalError}
    (h : (evaluate ⟨names, 0, closes⟩ fuel v m).1 = .error e) :
    e.cause ≠ .tooDeep k := by
  intro hcause
  have hsited := sited_evaluate ⟨names, 0, closes⟩ fuel v m
  rw [h] at hsited
  have hzero : (k : Int) = 0 := Trail.limit_eq hsited hcause
  omega

/-- An evaluation under a limit ends with the refusal of a body, or it is the evaluation under any
greater limit. -/
theorem evaluate_limit_cases {k : Nat} (hk : 1 ≤ k) (names : Naming) (closes : Nat → Bool)
    (fuel : Nat) (v : Value) {m : Machine} (hm : m.callDepth ≤ k) :
    (∃ e mo m', (moments ⟨names, 0, closes⟩ fuel v m).find? (Moment.attempts k) = some mo ∧
      evaluate ⟨names, k, closes⟩ fuel v m = (.error e, m') ∧ e.cause = .tooDeep k ∧
      e.frames.length + m.callDepth = k + mo.expansions) ∨
    ((moments ⟨names, 0, closes⟩ fuel v m).find? (Moment.attempts k) = none ∧
      ∀ other : Int, other = 0 ∨ (k : Int) < other →
        evaluate ⟨names, other, closes⟩ fuel v m = evaluate ⟨names, k, closes⟩ fuel v m) := by
  have hfollows := follows_evaluate hk names closes fuel v
  cases hfind : (moments ⟨names, 0, closes⟩ fuel v m).find? (Moment.attempts k) with
  | some mo =>
    obtain ⟨e, m', he, hcause, hframes⟩ := hfollows.cut m mo hm hfind
    exact .inl ⟨e, mo, m', rfl, he, hcause, hframes⟩
  | none =>
    refine .inr ⟨rfl, fun other hother => ?_⟩
    have hsame := hfollows.same m hm hfind
    rcases hother with rfl | hother
    · exact hsame.symm
    · -- an attempt at the greater limit would come behind one at this limit
      obtain ⟨k', rfl⟩ := Int.eq_ofNat_of_zero_le (a := other) (by omega)
      have hkk' : k ≤ k' := by omega
      have hdeeper : (moments ⟨names, 0, closes⟩ fuel v m).find? (Moment.attempts k') = none := by
        rw [List.find?_eq_none, ← List.any_eq_false] at hfind ⊢
        refine eq_false_of_ne_true fun hany => ?_
        rw [attempts_of_deeper names closes hkk' fuel v hm hany] at hfind
        cases hfind
      have hfollows := follows_evaluate (k := k') (by omega) names closes fuel v
      exact (hfollows.same m (by omega) hdeeper).trans hsame.symm

theorem same_unless_refused {k : Nat} (hk : 1 ≤ k) (names : Naming) (closes : Nat → Bool)
    (fuel : Nat) (v : Value) {m : Machine} (hm : m.callDepth ≤ k)
    (h : ∀ e, (evaluate ⟨names, k, closes⟩ fuel v m).1 = .error e → e.cause ≠ .tooDeep k)
    {other : Int} (hother : other = 0 ∨ (k : Int) < other) :
    evaluate ⟨names, other, closes⟩ fuel v m = evaluate ⟨names, k, closes⟩ fuel v m := by
  rcases evaluate_limit_cases hk names closes fuel v hm with
    ⟨e, _, _, _, he, hcause, _⟩ | ⟨_, hsame⟩
  · exact absurd hcause (h e (congrArg Prod.fst he))
  · exact hsame other hother

theorem attempt_of_refused {k : Nat} (hk : 1 ≤ k) (names : Naming) (closes : Nat → Bool)
    (fuel : Nat) (v : Value) {m : Machine} (hm : m.callDepth ≤ k) {e : EvalError}
    (he : (evaluate ⟨names, k, closes⟩ fuel v m).1 = .error e) (hcause : e.cause = .tooDeep k) :
    ∃ mo, (moments ⟨names, 0, closes⟩ fuel v m).find? (Moment.attempts k) = some mo ∧
      e.frames.length + m.callDepth = k + mo.expansions := by
  rcases evaluate_limit_cases hk names closes fuel v hm with
    ⟨e', mo, m', hfind, hrefused, _, hframes⟩ | ⟨_, hsame⟩
  · rw [hrefused] at he
    cases he
    exact ⟨mo, hfind, hframes⟩
  · -- the evaluation is the unlimited one, in which no body is refused
    rw [← hsame 0 (.inl rfl)] at he
    exact absurd hcause (unlimited_not_tooDeep names closes fuel v m hk he)

theorem refused_iff_attempt {k : Nat} (hk : 1 ≤ k) (names : Naming) (closes : Nat → Bool)
    (fuel : Nat) (v : Value) {m : Machine} (hm : m.callDepth ≤ k) :
    (∃ e, (evaluate ⟨names, k, closes⟩ fuel v m).1 = .error e ∧ e.cause = .tooDeep k) ↔
      ∃ mo ∈ moments ⟨names, 0, closes⟩ fuel v m, mo.attempts k = true := by
  constructor
  · rintro ⟨e, he, hcause⟩
    obtain ⟨mo, hfind, _⟩ := attempt_of_refused hk names closes fuel v hm he hcause
    exact ⟨mo, List.mem_of_find?_eq_some hfind, List.find?_some hfind⟩
  · rintro ⟨mo, hmo, hat⟩
    rcases evaluate_limit_cases hk names closes fuel v hm with
      ⟨e, _, _, _, he, hcause, _⟩ | ⟨hnone, _⟩
    · exact ⟨e, congrArg Prod.fst he, hcause⟩
    · exact absurd hat (List.find?_eq_none.mp hnone mo hmo)

theorem Interpreter.conclude_tooDeep {form : Value} {o : Outcome Value} {e : EvalError}
    {limit : Int} (h : Interpreter.conclude form o = .error (.eval e))
    (hcause : e.cause = .tooDeep limit) :
    ∃ inner, o = .error inner ∧ inner.cause = .tooDeep limit ∧
      e.frames.length = inner.frames.length + 1 := by
  cases o with
  | value v => cases h
  | error inner =>
    cases h
    exact ⟨inner, rfl, hcause, rfl⟩
  | exhausted =>
    cases h
    cases hcause

/-- The limit only ever cuts an evaluation off. Begun with no active body under a limit `k`, an
evaluation never has more than `k` active bodies. Unless it ends with the refusal of a body, its
outcome and its machine are those under any greater limit and under none. It ends so if and only if
the unlimited evaluation, complete or not, is about to enter a body while `k` bodies are active.
From the top level the error then has a frame for each of these, one for the form, and one for each
expansion that is being evaluated. -/
theorem depth_limit_cuts_off (k : Nat) (hk : 1 ≤ k) :
    (∀ (names : Naming) (closes : Nat → Bool) (fuel : Nat) (form : Value) (m : Machine),
      m.callDepth = 0 →
      (∀ mo ∈ moments ⟨names, k, closes⟩ fuel form m, mo.bodies ≤ k) ∧
      ((∀ e, (evaluate ⟨names, k, closes⟩ fuel form m).1 = .error e → e.cause ≠ .tooDeep k) →
        ∀ other : Int, other = 0 ∨ (k : Int) < other →
          evaluate ⟨names, other, closes⟩ fuel form m = evaluate ⟨names, k, closes⟩ fuel form m) ∧
      ((∃ e, (evaluate ⟨names, k, closes⟩ fuel form m).1 = .error e ∧ e.cause = .tooDeep k) ↔
        ∃ mo ∈ moments ⟨names, 0, closes⟩ fuel form m, mo.entering = true ∧ mo.bodies = k)) ∧
    ∀ (it : Interpreter) (form : Value) (e : EvalError), it.maxDepth = k →
      it.machine.callDepth = 0 → (it.evalTopLevel form).1 = .error (.eval e) →
      e.cause = .tooDeep k →
      ∃ mo, (moments ⟨it.names, 0, it.host.closes⟩ it.nesting form
          (it.emit (.evaluating form)).machine).find?
            (fun mo => mo.entering && mo.bodies == k) = some mo ∧
        e.frames.length = k + 1 + mo.expansions := by
  refine ⟨fun names closes fuel form m hm => ?_, fun it form e hlimit hm he hcause => ?_⟩
  · have hle : m.callDepth ≤ k := by omega
    refine ⟨bodies_le_limit names closes hk fuel form hle,
      fun h other hother => same_unless_refused hk names closes fuel form hle h hother, ?_⟩
    have hattempts : ∀ mo : Moment, mo.attempts k = true ↔ mo.entering = true ∧ mo.bodies = k :=
      fun mo => by simp only [Moment.attempts, Bool.and_eq_true, beq_iff_eq]
    simp only [refused_iff_attempt hk names closes fuel form hle, hattempts]
  · have hcontext : it.context = ⟨it.names, k, it.host.closes⟩ :=
      congrArg (fun limit => Context.mk it.names limit it.host.closes) hlimit
    have hresult := Interpreter.conclude_of_evalTopLevel he
    rw [hcontext] at hresult
    obtain ⟨inner, hinner, hrefused, houter⟩ := Interpreter.conclude_tooDeep hresult hcause
    have hdepth : (it.emit (.evaluating form)).machine.callDepth = 0 := hm
    obtain ⟨mo, hfind, hframes⟩ := attempt_of_refused hk it.names it.host.closes it.nesting form
      (m := (it.emit (.evaluating form)).machine) (by omega) hinner hrefused
    exact ⟨mo, hfind, by omega⟩

/-- Under a limit of two a function that calls itself is cut off with three frames, and the call of
a function that calls nothing is not cut off. -/
theorem depth_limit_cuts_off_recursion :
    let call : Value := .list [.symbol ⟨8⟩]
    let leaf : Value := .list [.procedure .function ⟨[], none⟩ [.bool true]]
    let it : Interpreter := ⟨Reader.ofSymbols Symbols.initial,
      ⟨⟨[], ⟨[(⟨8⟩, .procedure .function ⟨[], none⟩ [call])]⟩⟩, 0, []⟩, 2, .roomy⟩
    (∃ e, (it.evalTopLevel call).1 = .error (.eval e) ∧ e.cause = .tooDeep 2 ∧
      e.frames.length = 3) ∧
    evaluate ⟨it.names, 7, it.host.closes⟩ 9 leaf it.machine
      = evaluate ⟨it.names, 2, it.host.closes⟩ 9 leaf it.machine := by
  intro call leaf it
  obtain ⟨heval, htop⟩ := depth_limit_cuts_off 2 (by decide)
  refine ⟨?_, ?_⟩
  · have hfails : ∃ e, (it.evalTopLevel call).1 = .error (.eval e) ∧ e.cause = .tooDeep 2 :=
      ⟨_, rfl, rfl⟩
    have hfirst : (moments ⟨it.names, 0, it.host.closes⟩ it.nesting call
        (it.emit (.evaluating call)).machine).find? (fun mo => mo.entering && mo.bodies == 2)
          = some ⟨call, 2, 0, true⟩ := rfl
    obtain ⟨e, he, hcause⟩ := hfails
    obtain ⟨mo, hmo, hframes⟩ := htop it call e rfl rfl he hcause
    rw [hfirst] at hmo
    cases hmo
    exact ⟨e, he, hcause, hframes⟩
  · have hends : ∀ e, (evaluate ⟨it.names, 2, it.host.closes⟩ 9 leaf it.machine).1 = .error e →
        e.cause ≠ .tooDeep 2 := fun e he => nomatch he
    exact (heval it.names it.host.closes 9 leaf it.machine rfl).2.1 hends 7 (.inr (by decide))

end MiniLisp
