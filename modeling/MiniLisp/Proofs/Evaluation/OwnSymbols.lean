import MiniLisp.Proofs.Evaluation.Equivariance
import MiniLisp.Proofs.Evaluation.Occurrence
import MiniLisp.Proofs.Evaluation.RenamedScopes

/-!
# Evaluation makes no symbols

A value, an error or an environment is over a set of symbols if it corresponds to itself when only
these symbols correspond to themselves. What an evaluation begins with is all that its outcome and
the environment after it are made of; and the names that it is given for other symbols do not
matter.
Main statement: `evaluate_over`.
-/

namespace MiniLisp

section

variable (P : Symbol → Prop) (hP : ∀ s ∈ reservedSymbols, P s)

def Renaming.diagonal : Renaming where
  rel s t := s = t ∧ P s
  eq_iff h h' := by rw [h.1, h'.1]
  reserved s hs := ⟨rfl, hP s hs⟩

end

variable {P : Symbol → Prop} {hP : ∀ s ∈ reservedSymbols, P s}

theorem eq_of_forall₂ {α : Type} {R : α → α → Prop} (hR : ∀ a b, R a b → a = b) {as bs : List α}
    (h : List.Forall₂ R as bs) : as = bs := by
  have heq : List.Forall₂ Eq as bs := h.imp hR
  rwa [List.forall₂_eq_eq_eq] at heq

theorem ParamList.eq_of_rel {p q : ParamList Symbol} (h : p.Rel (Renaming.diagonal P hP).rel q) :
    p = q := by
  obtain ⟨ss, r⟩ := p
  obtain ⟨ts, r'⟩ := q
  obtain ⟨hpositional, hrest⟩ := h
  obtain rfl : ss = ts := eq_of_forall₂ (fun _ _ h => h.1) hpositional
  cases hrest with
  | some hr => rw [hr.1]
  | none => rfl

mutual

theorem Value.eq_of_renamed {v w : Value} (h : v.Renamed (.diagonal P hP) w) : v = w := by
  match v, h with
  | .bool _, .bool _ => rfl
  | .number _, .number _ => rfl
  | .string _, .string _ => rfl
  | .symbol _, .symbol hs => rw [hs.1]
  | .list _, .list hvs => rw [Value.eq_of_renamedAll hvs]
  | .special _, .special _ => rfl
  | .native _, .native _ => rfl
  | .procedure _ _ _, .procedure _ hp hbody =>
    rw [ParamList.eq_of_rel hp, Value.eq_of_renamedAll hbody]

theorem Value.eq_of_renamedAll {vs ws : List Value}
    (h : List.Forall₂ (Value.Renamed (.diagonal P hP)) vs ws) : vs = ws := by
  match vs, h with
  | [], .nil => rfl
  | _ :: _, .cons hv hvs => rw [Value.eq_of_renamed hv, Value.eq_of_renamedAll hvs]

end

theorem Frame.eq_of_renamed {f g : Frame} (h : f.Renamed (.diagonal P hP) g) : f = g := by
  obtain ⟨form, path, label⟩ := f
  obtain ⟨form', path', label'⟩ := g
  obtain ⟨hform, hpath, hlabel⟩ := h
  exact (Frame.mk.injEq ..).mpr ⟨Value.eq_of_renamed hform, hpath, hlabel⟩

theorem EvalError.eq_of_renamed {d e : EvalError} (h : d.Renamed (.diagonal P hP) e) : d = e := by
  obtain ⟨cause, path, frames⟩ := d
  obtain ⟨cause', path', frames'⟩ := e
  obtain ⟨hcause, hpath, hframes⟩ := h
  obtain rfl : frames = frames' := eq_of_forall₂ (fun _ _ => Frame.eq_of_renamed) hframes
  subst hpath
  cases hcause with
  | notApplicable hv name => rw [Value.eq_of_renamed hv]
  | same cause _ => rfl

theorem Event.eq_of_renamed {event event' : Event}
    (h : event.Renamed (.diagonal P hP) event') : event = event' := by
  cases h with
  | evaluating hv => rw [Value.eq_of_renamed hv]
  | _ => rfl

theorem Outcome.eq_of_renamed {o o' : Outcome Value}
    (h : o.Renamed (.diagonal P hP) (Value.Renamed (.diagonal P hP)) o') : o = o' := by
  cases h with
  | value hv => rw [Value.eq_of_renamed hv]
  | error he => rw [EvalError.eq_of_renamed he]
  | exhausted => rfl

variable (P hP) in
/-- Every symbol that the scope binds, and every symbol in the values, is in the set. -/
def Scope.Over (scope : Scope) : Prop :=
  ∀ b ∈ scope.entries, BindingRenamed (.diagonal P hP) (Renaming.diagonal P hP).rel b b

variable (P hP) in
def Environment.Over (env : Environment) : Prop := ∀ scope ∈ env.scopes, scope.Over P hP

namespace Scope

theorem over_empty : empty.Over P hP := fun _ hb => nomatch hb

theorem over_put {scope : Scope} (h : scope.Over P hP) {s : Symbol} {v : Value} (hs : P s)
    (hv : v.Renamed (.diagonal P hP) v) : (scope.put s v).Over P hP := by
  intro b hb
  rcases mem_putEntry hb with hb | rfl
  · exact h b hb
  · exact ⟨⟨rfl, hs⟩, hv⟩

theorem over_putAll {scope : Scope} (h : scope.Over P hP) {bs : List (Symbol × Value)}
    (hbs : ∀ b ∈ bs, BindingRenamed (.diagonal P hP) (Renaming.diagonal P hP).rel b b) :
    (scope.putAll bs).Over P hP := by
  induction bs generalizing scope with
  | nil => exact h
  | cons b bs ih =>
    obtain ⟨hb, hrest⟩ := List.forall_mem_cons.mp hbs
    exact ih (over_put h hb.1.2 hb.2) hrest

end Scope

theorem Scope.eq_of_renamed {scope scope' : Scope} (h : scope.Renamed (.diagonal P hP) scope') :
    scope = scope' := by
  have hbinding : ∀ b c,
      BindingRenamed (.diagonal P hP) (Renaming.diagonal P hP).rel b c → b = c := by
    rintro b c ⟨⟨hkey, _⟩, hvalue⟩
    exact Prod.ext hkey (Value.eq_of_renamed hvalue)
  exact congrArg Scope.mk (eq_of_forall₂ hbinding h)

theorem Environment.eq_of_renamed {env env' : Environment}
    (h : env.Renamed (.diagonal P hP) env') : env = env' := by
  have hinner : env.inner = env'.inner := eq_of_forall₂ (fun _ _ => Scope.eq_of_renamed) h.inner
  exact congrArg₂ Environment.mk hinner (Scope.eq_of_renamed h.global)

/-- An environment is over a set of symbols exactly if it corresponds to itself by these. -/
theorem Environment.over_iff {env : Environment} :
    env.Over P hP ↔ env.Renamed (.diagonal P hP) env := by
  rw [Over, forall_scopes_iff]
  constructor
  · rintro ⟨hinner, hglobal⟩
    exact ⟨List.forall₂_same.mpr fun scope hscope => List.forall₂_same.mpr (hinner scope hscope),
      List.forall₂_same.mpr hglobal⟩
  · intro h
    exact ⟨fun scope hscope => List.forall₂_same.mp (List.forall₂_same.mp h.inner scope hscope),
      List.forall₂_same.mp h.global⟩

variable (P hP) in
abbrev Value.Over (v : Value) : Prop := v.Renamed (.diagonal P hP) v

mutual

theorem Value.over_of_madeOf {v : Value} (h : v.MadeOf P) : v.Over P hP := by
  match v with
  | .bool b => exact .bool b
  | .number x => exact .number x
  | .string s => exact .string s
  | .symbol s => exact .symbol ⟨rfl, madeOf_symbol_iff.mp h⟩
  | .list items => exact .list (Value.overAll_of_madeOf (madeOf_list_iff.mp h))
  | .special form => exact .special form
  | .native n => exact .native n
  | .procedure kind params body =>
    obtain ⟨hparams, hbody⟩ := madeOf_procedure_iff.mp h
    obtain ⟨hpositional, hrest⟩ := ParamList.madeOf_iff.mp hparams
    refine .procedure kind ⟨?_, ?_⟩ (Value.overAll_of_madeOf hbody)
    · exact List.forall₂_same.mpr fun s hs => ⟨rfl, hpositional s hs⟩
    · cases hr : params.rest with
      | none => exact .none
      | some r => exact .some ⟨rfl, hrest r hr⟩

theorem Value.overAll_of_madeOf {vs : List Value} (h : ∀ v ∈ vs, v.MadeOf P) :
    List.Forall₂ (Value.Renamed (.diagonal P hP)) vs vs := by
  match vs with
  | [] => exact .nil
  | v :: vs =>
    obtain ⟨hfirst, hrest⟩ := List.forall_mem_cons.mp h
    exact .cons (Value.over_of_madeOf hfirst) (Value.overAll_of_madeOf hrest)

end

/-- A value is over a set of symbols exactly if no others occur in it. -/
theorem Value.over_iff {v : Value} : v.Over P hP ↔ v.MadeOf P := by
  refine ⟨fun h s hs => ?_, Value.over_of_madeOf⟩
  induction hs with
  | symbol =>
    cases h with
    | symbol h => exact h.2
  | element hv _ ih =>
    cases h with
    | list h => exact ih (List.forall₂_same.mp h _ hv)
  | parameter hs =>
    cases h with
    | procedure _ hparams _ =>
      rcases hs with hs | hs
      · exact (List.forall₂_same.mp hparams.positional s hs).2
      · have hrest := hparams.rest
        rw [hs] at hrest
        cases hrest with
        | some h => exact h.2
  | body hv _ ih =>
    cases h with
    | procedure _ _ h => exact ih (List.forall₂_same.mp h _ hv)

variable (P hP) in
structure Machine.Over (m : Machine) : Prop where
  env : m.env.Over P hP
  log : ∀ event ∈ m.log, event.Renamed (.diagonal P hP) event

theorem Machine.over_iff {m : Machine} :
    m.Over P hP ↔ m.Renamed (.entrywise (.diagonal P hP)) m :=
  ⟨fun h => ⟨Environment.over_iff.mp h.env, rfl, List.forall₂_same.mpr h.log⟩,
    fun h => ⟨Environment.over_iff.mpr h.env, List.forall₂_same.mp h.log⟩⟩

section

variable {Q : Symbol → Prop} {hQ : ∀ s ∈ reservedSymbols, Q s} (h : ∀ s, P s → Q s)
include h

theorem Renaming.diagonal_mono :
    ∀ s t, (Renaming.diagonal P hP).rel s t → (Renaming.diagonal Q hQ).rel s t :=
  fun s _ hs => ⟨hs.1, h s hs.2⟩

theorem Value.Over.mono {v : Value} (hv : v.Over P hP) : v.Over Q hQ :=
  Value.Renamed.mono (Renaming.diagonal_mono h) hv

theorem Machine.Over.mono {m : Machine} (hm : m.Over P hP) : m.Over Q hQ :=
  Machine.over_iff.mpr ((Machine.over_iff.mp hm).mono (Renaming.diagonal_mono h))

end

theorem Machine.eq_of_renamed {m n : Machine}
    (h : m.Renamed (.entrywise (.diagonal P hP)) n) : m = n := by
  have hlog : m.log = n.log := eq_of_forall₂ (fun _ _ => Event.eq_of_renamed) h.log
  exact (Machine.mk.injEq ..).mpr ⟨Environment.eq_of_renamed h.env, h.callDepth, hlog⟩

/-- An evaluation over a set of symbols stays over it, and depends on the names of these symbols
alone. -/
theorem evaluate_over {c d : Context} (hnames : ∀ s, P s → c.names s = d.names s)
    (hlimit : c.maxDepth = d.maxDepth) (hcloses : c.closes = d.closes) (fuel : Nat) {v : Value}
    (hv : v.Over P hP) {m : Machine} (hm : m.Over P hP) :
    evaluate d fuel v m = evaluate c fuel v m ∧
      (evaluate c fuel v m).1.Renamed (.diagonal P hP) (Value.Renamed (.diagonal P hP))
        (evaluate c fuel v m).1 ∧
      (evaluate c fuel v m).2.Over P hP := by
  have hcd : c.Renamed (.diagonal P hP) d := ⟨fun h => h.1 ▸ hnames _ h.2, hlimit, hcloses⟩
  obtain ⟨ho, hn⟩ := agree_evaluate (.entrywise (.diagonal P hP)) hcd fuel hv m m
    (Machine.over_iff.mp hm)
  have hsame : evaluate c fuel v m = evaluate d fuel v m :=
    Prod.ext (Outcome.eq_of_renamed ho) (Machine.eq_of_renamed hn)
  rw [← hsame] at ho hn
  exact ⟨hsame.symm, ho, Machine.over_iff.mpr hn⟩

end MiniLisp
