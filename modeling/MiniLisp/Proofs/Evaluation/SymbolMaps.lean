import MiniLisp.Proofs.Evaluation.Equivariance
import MiniLisp.Proofs.Evaluation.RenamedScopes

/-!
# Maps of symbols

A map of symbols carries over to whatever holds symbols. An injective one that moves no reserved
symbol is a renaming, and then correspondence is being the image; so evaluating the image of a form
in the image of a machine is taking the image of the evaluation.
Main statement: `evaluate_rename`.
-/

namespace MiniLisp

section

variable (f : Symbol → Symbol)

mutual

def Value.rename : Value → Value
  | .bool b => .bool b
  | .number x => .number x
  | .string s => .string s
  | .symbol s => .symbol (f s)
  | .list items => .list (renameAll items)
  | .special form => .special form
  | .native n => .native n
  | .procedure kind params body => .procedure kind (params.map f) (renameAll body)

def Value.renameAll : List Value → List Value
  | [] => []
  | v :: vs => v.rename :: renameAll vs

end

def EvalCause.rename : EvalCause → EvalCause
  | .notApplicable value name => .notApplicable (value.rename f) name
  | cause => cause

def Frame.rename (frame : Frame) : Frame := { frame with form := frame.form.rename f }

def EvalError.rename (e : EvalError) : EvalError :=
  ⟨e.cause.rename f, e.path, e.frames.map (Frame.rename f)⟩

def Event.rename : Event → Event
  | .evaluating form => .evaluating (form.rename f)
  | event => event

def Outcome.rename : Outcome Value → Outcome Value
  | .value v => .value (v.rename f)
  | .error e => .error (e.rename f)
  | .exhausted => .exhausted

def Scope.rename (scope : Scope) : Scope :=
  ⟨scope.entries.map fun b => (f b.1, b.2.rename f)⟩

def Environment.rename (env : Environment) : Environment :=
  ⟨env.inner.map (Scope.rename f), env.global.rename f⟩

def Machine.rename (m : Machine) : Machine :=
  { m with env := m.env.rename f, log := m.log.map (Event.rename f) }

end

section

variable {f : Symbol → Symbol} (hf : Function.Injective f) (hfix : ∀ s ∈ reservedSymbols, f s = s)

/-- Each symbol corresponds to its image. -/
def Renaming.ofMap : Renaming where
  rel s t := f s = t
  eq_iff h h' := by rw [← h, ← h', hf.eq_iff]
  reserved := hfix

theorem ParamList.rel_map (p : ParamList Symbol) :
    p.Rel (Renaming.ofMap hf hfix).rel (p.map f) := by
  refine ⟨List.forall₂_map_right_iff.mpr (List.forall₂_same.mpr fun s _ => rfl), ?_⟩
  rw [map]
  cases p.rest with
  | none => exact .none
  | some r => exact .some rfl

mutual

theorem Value.renamed_rename (v : Value) : v.Renamed (.ofMap hf hfix) (v.rename f) := by
  match v with
  | .bool b => exact .bool b
  | .number x => exact .number x
  | .string s => exact .string s
  | .symbol s => exact .symbol rfl
  | .list items => exact .list (Value.renamedAll_rename items)
  | .special form => exact .special form
  | .native n => exact .native n
  | .procedure kind params body =>
    exact .procedure kind (params.rel_map hf hfix) (Value.renamedAll_rename body)

theorem Value.renamedAll_rename (vs : List Value) :
    List.Forall₂ (Value.Renamed (.ofMap hf hfix)) vs (Value.renameAll f vs) := by
  match vs with
  | [] => exact .nil
  | v :: vs => exact .cons (Value.renamed_rename v) (Value.renamedAll_rename vs)

end

theorem forall₂_iff_map_eq {α β : Type} {R : α → β → Prop} {g : α → β}
    (h : ∀ a b, R a b ↔ g a = b) {as : List α} {bs : List β} :
    List.Forall₂ R as bs ↔ as.map g = bs := by
  have hgraph : R = fun a b => g a = b := funext fun a => funext fun b => propext (h a b)
  rw [hgraph, ← List.forall₂_map_left_iff (f := g), List.forall₂_eq_eq_eq]

variable {hf hfix}

theorem ParamList.map_eq_of_rel {p q : ParamList Symbol}
    (h : p.Rel (Renaming.ofMap hf hfix).rel q) : p.map f = q := by
  obtain ⟨ss, r⟩ := p
  obtain ⟨ts, r'⟩ := q
  obtain ⟨hpositional, hrest⟩ := h
  rw [map, (forall₂_iff_map_eq fun _ _ => Iff.rfl).mp hpositional]
  cases hrest with
  | some hr => rw [← hr, Option.map_some]
  | none => rfl

mutual

theorem Value.rename_eq_of_renamed {v w : Value} (h : v.Renamed (.ofMap hf hfix) w) :
    v.rename f = w := by
  match v, h with
  | .bool _, .bool _ => rw [Value.rename]
  | .number _, .number _ => rw [Value.rename]
  | .string _, .string _ => rw [Value.rename]
  | .symbol _, .symbol hs => rw [Value.rename, hs]
  | .list _, .list hvs => rw [Value.rename, Value.renameAll_eq_of_renamed hvs]
  | .special _, .special _ => rw [Value.rename]
  | .native _, .native _ => rw [Value.rename]
  | .procedure _ _ _, .procedure _ hp hbody =>
    rw [Value.rename, ParamList.map_eq_of_rel hp, Value.renameAll_eq_of_renamed hbody]

theorem Value.renameAll_eq_of_renamed {vs ws : List Value}
    (h : List.Forall₂ (Value.Renamed (.ofMap hf hfix)) vs ws) : Value.renameAll f vs = ws := by
  match vs, h with
  | [], .nil => rw [Value.renameAll]
  | _ :: _, .cons hv hvs =>
    rw [Value.renameAll, Value.rename_eq_of_renamed hv, Value.renameAll_eq_of_renamed hvs]

end

theorem Value.renamed_iff {v w : Value} : v.Renamed (.ofMap hf hfix) w ↔ v.rename f = w := by
  refine ⟨rename_eq_of_renamed, ?_⟩
  rintro rfl
  exact v.renamed_rename hf hfix

theorem Event.renamed_iff {event event' : Event} :
    event.Renamed (.ofMap hf hfix) event' ↔ event.rename f = event' := by
  constructor
  · intro h
    cases h with
    | evaluating hv => rw [rename, Value.renamed_iff.mp hv]
    | _ => rfl
  · rintro rfl
    cases event with
    | evaluating form => exact .evaluating (Value.renamed_iff.mpr rfl)
    | expanded name => exact .expanded name
    | discarded count => exact .discarded count

theorem Scope.renamed_iff {scope scope' : Scope} :
    scope.Renamed (.ofMap hf hfix) scope' ↔ scope.rename f = scope' := by
  obtain ⟨es⟩ := scope
  obtain ⟨fs⟩ := scope'
  have hbinding : ∀ b c : Symbol × Value,
      BindingRenamed (.ofMap hf hfix) (Renaming.ofMap hf hfix).rel b c
        ↔ (f b.1, b.2.rename f) = c := by
    rintro ⟨s, v⟩ ⟨t, w⟩
    rw [Prod.mk.injEq]
    exact and_congr Iff.rfl Value.renamed_iff
  rw [rename, Scope.mk.injEq]
  exact forall₂_iff_map_eq hbinding

theorem Environment.renamed_iff {env env' : Environment} :
    env.Renamed (.ofMap hf hfix) env' ↔ env.rename f = env' := by
  have hscopes : ∀ {inner inner' : List Scope},
      List.Forall₂ (Scope.Renamed (.ofMap hf hfix)) inner inner'
        ↔ inner.map (Scope.rename f) = inner' := by
    apply forall₂_iff_map_eq
    exact fun _ _ => Scope.renamed_iff
  constructor
  · intro h
    rw [rename, hscopes.mp h.inner, Scope.renamed_iff.mp h.global]
  · rintro rfl
    exact ⟨hscopes.mpr rfl, Scope.renamed_iff.mpr rfl⟩

theorem Machine.renamed_iff {m n : Machine} :
    m.Renamed (.entrywise (.ofMap hf hfix)) n ↔ m.rename f = n := by
  have hlog : ∀ {log log' : List Event},
      List.Forall₂ (Event.Renamed (.ofMap hf hfix)) log log' ↔ log.map (Event.rename f) = log' := by
    apply forall₂_iff_map_eq
    exact fun _ _ => Event.renamed_iff
  constructor
  · intro h
    rw [rename, Environment.renamed_iff.mp h.env, h.callDepth, hlog.mp h.log]
  · rintro rfl
    exact ⟨Environment.renamed_iff.mpr rfl, rfl, hlog.mpr rfl⟩

theorem Frame.rename_eq_of_renamed {frame frame' : Frame}
    (h : frame.Renamed (.ofMap hf hfix) frame') : frame.rename f = frame' := by
  obtain ⟨form, path, label⟩ := frame
  obtain ⟨form', path', label'⟩ := frame'
  obtain ⟨hform, rfl, rfl⟩ := h
  rw [rename, Value.renamed_iff.mp hform]

theorem EvalError.rename_eq_of_renamed {d e : EvalError} (h : d.Renamed (.ofMap hf hfix) e) :
    d.rename f = e := by
  obtain ⟨cause, path, frames⟩ := d
  obtain ⟨cause', path', frames'⟩ := e
  obtain ⟨hcause, rfl, hframes⟩ := h
  have hall : frames.map (Frame.rename f) = frames' :=
    (forall₂_iff_map_eq fun _ _ => Iff.rfl).mp (hframes.imp fun _ _ => Frame.rename_eq_of_renamed)
  rw [rename, hall]
  cases hcause with
  | notApplicable hv name => rw [EvalCause.rename, Value.renamed_iff.mp hv]
  | same cause hsame =>
    cases cause with
    | notApplicable v name => exact absurd rfl (hsame v name)
    | _ => rfl

theorem Outcome.rename_eq_of_renamed {o o' : Outcome Value}
    (h : o.Renamed (.ofMap hf hfix) (Value.Renamed (.ofMap hf hfix)) o') : o.rename f = o' := by
  cases h with
  | value hv => rw [rename, Value.renamed_iff.mp hv]
  | error he => rw [rename, EvalError.rename_eq_of_renamed he]
  | exhausted => rfl

end

theorem evaluate_rename {f : Symbol → Symbol} (hf : Function.Injective f)
    (hfix : ∀ s ∈ reservedSymbols, f s = s) {names names' : Naming}
    (hnames : ∀ s, names' (f s) = names s) (maxDepth : Int) (closes : Nat → Bool) (fuel : Nat)
    (form : Value) (m : Machine) :
    evaluate ⟨names', maxDepth, closes⟩ fuel (form.rename f) (m.rename f)
      = ((evaluate ⟨names, maxDepth, closes⟩ fuel form m).1.rename f,
          (evaluate ⟨names, maxDepth, closes⟩ fuel form m).2.rename f) := by
  have hcontext : Context.Renamed (.ofMap hf hfix) ⟨names, maxDepth, closes⟩
      ⟨names', maxDepth, closes⟩ := by
    refine ⟨fun {s t} h => ?_, rfl, rfl⟩
    rw [← (show f s = t from h)]
    exact (hnames s).symm
  have hstart : m.Renamed (.entrywise (.ofMap hf hfix)) (m.rename f) := Machine.renamed_iff.mpr rfl
  obtain ⟨houtcome, hmachine⟩ := agree_evaluate (.entrywise (.ofMap hf hfix)) hcontext fuel
    (form.renamed_rename hf hfix) m (m.rename f) hstart
  exact (Prod.ext (Outcome.rename_eq_of_renamed houtcome) (Machine.renamed_iff.mp hmachine)).symm

end MiniLisp
