import MiniLisp.Interpreter
import MiniLisp.Proofs.Evaluation.Fault
import MiniLisp.Proofs.Evaluation.Occurrence

/-!
# What errors say

An error is told in terms of a set of symbols if every name in its message and in the labels of its
frames is the name of a symbol of the set, and no other symbols occur in the value that could not be
applied; in the forms of the frames there may be the marks of every table besides. What fails
without evaluating anything names no symbol at all.
-/

namespace MiniLisp

section

variable (names : Naming) (P : Symbol → Prop)

/-- A name by which something was called, if there is one, is the name of a symbol of the set. -/
def CalledIn (called : Option String) : Prop := ∀ name ∈ called, ∃ s, P s ∧ names s = some name

/-- What an error may call the operation whose operands do not fit in number. -/
inductive DescribedIn : String → Prop
  | special (form : SpecialForm) : DescribedIn ("special form " ++ form.name)
  | native (n : Native) : DescribedIn n.describe
  | binding : DescribedIn "let binding"
  | definition : DescribedIn "fn definition"
  | procedure (kind : ProcedureKind) {params : ParamList Symbol} {called : Option String}
      (hparams : params.MadeOf P) (hcalled : CalledIn names P called) :
      DescribedIn (called.getD kind.headName ++ " " ++ params.describeWith names)

def EvalCause.ToldIn : EvalCause → Prop
  | .unbound name => ∃ s, P s ∧ names.nameOf s = name
  | .arity description _ _ _ => DescribedIn names P description
  | .notApplicable value called => value.MadeOf P ∧ CalledIn names P called
  | .typeFault _ | .emptyApplication | .badDefinition _ | .tooDeep _ | .exhausted | .internal _ =>
    True

structure Frame.ToldIn (f : Frame) : Prop where
  form : f.form.MadeOf (OrReserved P)
  label : f.label = some expansionLabel ∨ f.label = some Interpreter.topLevelLabel ∨
    CalledIn names P f.label

structure EvalError.ToldIn (e : EvalError) : Prop where
  cause : e.cause.ToldIn names P
  frames : ∀ f ∈ e.frames, f.ToldIn names P

/-- If it is an error, it is told in terms of the set. -/
def ErrorToldIn {α : Type} (r : Except EvalError α) : Prop :=
  ∀ e, r = .error e → e.ToldIn names P

end

variable {names : Naming} {P : Symbol → Prop} {α β : Type}

theorem EvalError.toldIn_of {cause : EvalCause} (h : cause.ToldIn names P) :
    (of cause).ToldIn names P := ⟨h, fun _ hf => nomatch hf⟩

theorem EvalError.ToldIn.within {e : EvalError} (h : e.ToldIn names P) (i : Int) :
    (e.within i).ToldIn names P := ⟨h.cause, h.frames⟩

theorem EvalError.ToldIn.leaving {e : EvalError} (h : e.ToldIn names P) {form : Value}
    {label : Option String} (hframe : Frame.ToldIn names P ⟨form, e.path, label⟩) :
    (e.leaving form label).ToldIn names P :=
  ⟨h.cause, List.forall_mem_cons.mpr ⟨hframe, h.frames⟩⟩

theorem EvalError.ToldIn.leavingBody {e : EvalError} (h : e.ToldIn names P) {form : Value}
    {label : Option String} (hframe : Frame.ToldIn names P ⟨form, e.path, label⟩) :
    (e.leavingBody form label).ToldIn names P :=
  (h.leaving hframe).within 0

section

variable {r : Except EvalError α}

theorem errorToldIn_ok {a : α} : ErrorToldIn names P (.ok a : Except EvalError α) :=
  fun _ h => nomatch h

theorem errorToldIn_error {e : EvalError} (h : e.ToldIn names P) :
    ErrorToldIn names P (.error e : Except EvalError α) := by
  intro e' he
  cases he
  exact h

theorem errorToldIn_fault {fault : TypeFault}
    (h : ∀ e, r = .error e → e = EvalError.of (.typeFault fault)) : ErrorToldIn names P r := by
  intro e he
  rw [h e he]
  exact EvalError.toldIn_of trivial

theorem ErrorToldIn.map (h : ErrorToldIn names P r) (f : α → β) :
    ErrorToldIn names P (r.map f) := fun e he => h e (Native.error_of_map he)

theorem ErrorToldIn.bind (h : ErrorToldIn names P r) {f : α → Except EvalError β}
    (hf : ∀ a, ErrorToldIn names P (f a)) : ErrorToldIn names P (r.bind f) := by
  intro e he
  rcases Native.error_of_bind he with hr | ⟨a, _, hfa⟩
  · exact h e hr
  · exact hf a e hfa

theorem ErrorToldIn.mapError (h : ErrorToldIn names P r) {f : EvalError → EvalError}
    (hf : ∀ e, e.ToldIn names P → (f e).ToldIn names P) : ErrorToldIn names P (r.mapError f) := by
  intro e he
  cases r with
  | ok a => cases he
  | error e' =>
    cases he
    exact hf e' (h e' rfl)

end

theorem errorToldIn_asBool (v : Value) : ErrorToldIn names P v.asBool :=
  errorToldIn_fault fun _ => Value.asBool_error

theorem errorToldIn_asNumber (v : Value) : ErrorToldIn names P v.asNumber :=
  errorToldIn_fault fun _ => Value.asNumber_error

theorem errorToldIn_asSymbol (v : Value) : ErrorToldIn names P v.asSymbol :=
  errorToldIn_fault fun _ => Value.asSymbol_error

theorem errorToldIn_asList (v : Value) : ErrorToldIn names P v.asList :=
  errorToldIn_fault fun _ => Value.asList_error

theorem errorToldIn_collect {f : Value → Except EvalError α}
    (hf : ∀ v, ErrorToldIn names P (f v)) (k : Int) (vs : List Value) :
    ErrorToldIn names P (collect f k vs) := by
  intro e he
  obtain ⟨j, hj, e', he', _, rfl⟩ := collect_error he
  exact (hf _ e' he').within _

theorem errorToldIn_requireArity {description : String} (h : DescribedIn names P description)
    (rule : ArityRule) (expected actual : Nat) :
    ErrorToldIn names P (requireArity rule expected actual description) := by
  unfold requireArity
  split
  · exact errorToldIn_ok
  · exact errorToldIn_error (EvalError.toldIn_of h)

theorem ParamList.errorToldIn_parse (vs : List Value) : ErrorToldIn names P (parse vs) := by
  intro e he
  unfold parse at he
  split at he
  · rename_i e' he'
    cases he
    exact errorToldIn_collect errorToldIn_asSymbol 0 vs _ he'
  · obtain ⟨j, _, _, rfl⟩ := ofSymbols_error he
    have hcause : EvalCause.ToldIn names P (.badDefinition .misplacedRest) := trivial
    exact (EvalError.toldIn_of hcause).within _

theorem ParamList.errorToldIn_parseChild (i : Int) (v : Value) :
    ErrorToldIn names P (parseChild i v) := by
  intro e he
  unfold parseChild at he
  split at he
  · rename_i e' he'
    cases he
    exact ((errorToldIn_asList v).bind errorToldIn_parse e' he').within i
  · cases he

theorem Definition.errorToldIn_parse (form : List Value) : ErrorToldIn names P (parse form) := by
  unfold parse
  split
  · rename_i head params body
    have hcause : EvalCause.ToldIn names P (.badDefinition .unknownHead) := trivial
    split
    · exact errorToldIn_error ((EvalError.toldIn_of hcause).within 0)
    · split
      · rename_i e he
        exact errorToldIn_error (ParamList.errorToldIn_parseChild 1 params e he)
      · exact errorToldIn_ok
  · have hcause : EvalCause.ToldIn names P (.arity "fn definition" .atLeast 2 form.length) :=
      DescribedIn.definition
    exact errorToldIn_error (EvalError.toldIn_of hcause)

namespace Native

theorem errorToldIn_listAt (k : Int) (v : Value) : ErrorToldIn names P (listAt k v) :=
  (errorToldIn_asList v).mapError fun _ h => h.within k

theorem errorToldIn_numberAt (k : Int) (v : Value) : ErrorToldIn names P (numberAt k v) :=
  (errorToldIn_asNumber v).mapError fun _ h => h.within k

theorem errorToldIn_typeFault {fault : TypeFault} {k : Int} :
    ErrorToldIn names P
      (.error ((EvalError.of (.typeFault fault)).within k) : Except EvalError α) := by
  have hcause : EvalCause.ToldIn names P (.typeFault fault) := trivial
  exact errorToldIn_error ((EvalError.toldIn_of hcause).within k)

theorem errorToldIn_compare (v w : Value) : ErrorToldIn names P (compare v w) := by
  unfold compare
  split
  · exact (errorToldIn_numberAt 2 _).map _
  · exact ((errorToldIn_asSymbol _).mapError fun _ h => h.within 2).map _
  · exact errorToldIn_typeFault

theorem errorToldIn_firstOf (vs : List Value) : ErrorToldIn names P (firstOf vs) := by
  cases vs with
  | nil => exact errorToldIn_typeFault
  | cons v vs => exact errorToldIn_ok

theorem errorToldIn_run (n : Native) (args : List Value) : ErrorToldIn names P (n.run args) := by
  unfold run
  split
  · exact (errorToldIn_collect errorToldIn_asNumber 1 _).map _
  · exact (errorToldIn_collect errorToldIn_asNumber 1 _).map _
  · refine (errorToldIn_numberAt 1 _).bind fun x => ?_
    exact (errorToldIn_collect errorToldIn_asNumber 2 _).bind fun xs => errorToldIn_ok
  · exact errorToldIn_compare _ _
  · exact (errorToldIn_listAt 1 _).bind errorToldIn_firstOf
  · exact (errorToldIn_listAt 1 _).map _
  · exact errorToldIn_ok
  · exact (errorToldIn_collect errorToldIn_asList 1 _).map _
  · exact errorToldIn_ok
  · exact errorToldIn_ok
  · exact (errorToldIn_listAt 1 _).map _
  · exact errorToldIn_error (EvalError.toldIn_of trivial)

end Native

end MiniLisp
