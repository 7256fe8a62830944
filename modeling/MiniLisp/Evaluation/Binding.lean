import MiniLisp.Evaluation.Plan

/-!
# Parameters and operands

Written parameter lists become parameter lists, definitions become procedures, and operands are
paired with parameters. The number of operands is checked before any of them is evaluated.
-/

namespace MiniLisp

def Value.asBool : Value → Except EvalError Bool
  | .bool b => .ok b
  | _ => .error (EvalError.of (.typeFault .expectedBool))

def Value.asNumber : Value → Except EvalError Float
  | .number x => .ok x
  | _ => .error (EvalError.of (.typeFault .expectedNumber))

def Value.asSymbol : Value → Except EvalError Symbol
  | .symbol s => .ok s
  | _ => .error (EvalError.of (.typeFault .expectedSymbol))

def Value.asList : Value → Except EvalError (List Value)
  | .list vs => .ok vs
  | _ => .error (EvalError.of (.typeFault .expectedList))

/-- A list of values of which each is required to be of one kind; the error of the first that is
not is placed at its position, where `k` is the position of the first value. -/
def collect (f : Value → Except EvalError α) (k : Int) : List Value → Except EvalError (List α)
  | [] => .ok []
  | v :: vs => match f v with
    | .error e => .error (e.within k)
    | .ok a => match collect f (k + 1) vs with
      | .error e => .error e
      | .ok as => .ok (a :: as)

theorem Value.eq_symbol_of_asSymbol {v : Value} {s : Symbol} (h : v.asSymbol = .ok s) :
    v = .symbol s := by
  cases v <;> cases h
  rfl

theorem Value.eq_list_of_asList {v : Value} {vs : List Value} (h : v.asList = .ok vs) :
    v = .list vs := by
  cases v <;> cases h
  rfl

theorem Value.asBool_error {v : Value} {e : EvalError} (h : v.asBool = .error e) :
    e = EvalError.of (.typeFault .expectedBool) := by
  cases v <;> cases h <;> rfl

theorem Value.asNumber_error {v : Value} {e : EvalError} (h : v.asNumber = .error e) :
    e = EvalError.of (.typeFault .expectedNumber) := by
  cases v <;> cases h <;> rfl

theorem Value.asSymbol_error {v : Value} {e : EvalError} (h : v.asSymbol = .error e) :
    e = EvalError.of (.typeFault .expectedSymbol) := by
  cases v <;> cases h <;> rfl

theorem Value.asList_error {v : Value} {e : EvalError} (h : v.asList = .error e) :
    e = EvalError.of (.typeFault .expectedList) := by
  cases v <;> cases h <;> rfl

theorem collect_map {f : Value → Except EvalError α} {make : α → Value}
    (hf : ∀ a, f (make a) = .ok a) (k : Int) (as : List α) :
    collect f k (as.map make) = .ok as := by
  induction as generalizing k with
  | nil => rfl
  | cons a as ih => rw [List.map_cons, collect, hf, ih]

theorem eq_map_of_collect {f : Value → Except EvalError α} {make : α → Value}
    (hf : ∀ {v a}, f v = .ok a → v = make a) {k : Int} {vs : List Value} {as : List α}
    (h : collect f k vs = .ok as) : vs = as.map make := by
  induction vs generalizing k as with
  | nil =>
    cases h
    rfl
  | cons v vs ih =>
    unfold collect at h
    split at h
    · cases h
    · rename_i a ha
      split at h
      · cases h
      · rename_i as' has
        cases h
        rw [hf ha, ih has, List.map_cons]

/-- A collection fails at the first value that is not of the required kind. -/
theorem collect_error {f : Value → Except EvalError α} {k : Int} {vs : List Value}
    {e : EvalError} (h : collect f k vs = .error e) :
    ∃ (j : Nat) (hj : j < vs.length) (e' : EvalError), f vs[j] = .error e' ∧
      (∀ v ∈ vs.take j, ∃ a, f v = .ok a) ∧ e = e'.within (k + j) := by
  induction vs generalizing k with
  | nil => cases h
  | cons v vs ih =>
    unfold collect at h
    split at h
    · rename_i e' he'
      cases h
      refine ⟨0, Nat.succ_pos _, e', he', ?_, by rw [Int.natCast_zero, Int.add_zero]⟩
      exact fun w hw => nomatch hw
    · rename_i a ha
      split at h
      · rename_i e' he'
        cases h
        obtain ⟨j, hj, e'', hf, hbefore, rfl⟩ := ih he'
        have hk : k + 1 + (j : Int) = k + ((j + 1 : Nat) : Int) := by omega
        refine ⟨j + 1, Nat.succ_lt_succ hj, e'', hf, ?_, by rw [hk]⟩
        rw [List.take_succ_cons]
        exact List.forall_mem_cons.mpr ⟨⟨a, ha⟩, hbefore⟩
      · cases h

namespace ParamList

/-- The parameter list with the given symbols: the first rest mark, if there is one, must be
followed by exactly one symbol. -/
def ofSymbols (ss : List Symbol) : Except EvalError (ParamList Symbol) :=
  let positional := ss.takeWhile fun s => decide (s ≠ Symbol.rest)
  match ss.dropWhile fun s => decide (s ≠ Symbol.rest) with
  | [] => .ok ⟨ss, none⟩
  | [_, r] => .ok ⟨positional, some r⟩
  | _ => .error ((EvalError.of (.badDefinition .misplacedRest)).within positional.length)

def parse (vs : List Value) : Except EvalError (ParamList Symbol) :=
  match collect Value.asSymbol 0 vs with
  | .error e => .error e
  | .ok ss => ofSymbols ss

def toForm (p : ParamList Symbol) : List Value := Value.ofSymbols p.symbols

/-- The parameter list that stands as child `i` of a form. -/
def parseChild (i : Int) (v : Value) : Except EvalError (ParamList Symbol) :=
  match v.asList.bind parse with
  | .error e => .error (e.within i)
  | .ok p => .ok p

end ParamList

structure Definition where
  kind : ProcedureKind
  params : ParamList Symbol
  body : List Value

namespace Definition

/-- The kind of procedure that a definition with the given head defines. -/
def kindOf? : Value → Option ProcedureKind
  | .symbol s =>
    if s = Symbol.fn then some .function
    else if s = Symbol.macroHead then some .expander
    else none
  | _ => none

def parse : List Value → Except EvalError Definition
  | head :: params :: body => match kindOf? head with
    | none => .error ((EvalError.of (.badDefinition .unknownHead)).within 0)
    | some kind => match ParamList.parseChild 1 params with
      | .error e => .error e
      | .ok p => .ok ⟨kind, p, body⟩
  | form => .error (EvalError.of (.arity "fn definition" .atLeast 2 form.length))

/-- The list that a value is, if it is headed like a definition. -/
def form? : Value → Option (List Value)
  | .list (head :: rest) => if (kindOf? head).isSome then some (head :: rest) else none
  | _ => none

end Definition

def requireArity (rule : ArityRule) (expected actual : Nat) (description : String) :
    Except EvalError Unit :=
  if rule.admits expected actual then .ok ()
  else .error (EvalError.of (.arity description rule expected actual))

namespace ParamList

/-- With a rest parameter any number of further operands is accepted. -/
def arityRule (p : ParamList α) : ArityRule := if p.rest.isNone then .exactly else .atLeast

/-- Pairs arguments with parameters; the rest parameter gets the list of all further ones. -/
def pair (p : ParamList α) (args : List Value) : List (α × Value) :=
  p.positional.zip args ++ match p.rest with
    | none => []
    | some r => [(r, .list (args.drop p.positional.length))]

end ParamList

/-- Evaluates forms in order, each at its position, where `k` is the position of the first. -/
def evalEach (k : Int) : List Value → Plan (List Value)
  | [] => pure []
  | v :: vs => do
    let x ← Plan.within k (.eval v)
    let xs ← evalEach (k + 1) vs
    pure (x :: xs)

theorem run_evalEach_cons (ctx : Context) (ev : Value → Eval Value) (k : Int) (v : Value)
    (vs : List Value) :
    (evalEach k (v :: vs)).run ctx ev = Eval.within k (ev v) >>= fun x =>
      (evalEach (k + 1) vs).run ctx ev >>= fun xs => pure (x :: xs) := rfl

/-- Evaluates forms in order and returns the last result, or `last` if there is no form. -/
def evalLast (k : Int) (last : Value) : List Value → Plan Value
  | [] => pure last
  | v :: vs => do
    let x ← Plan.within k (.eval v)
    evalLast (k + 1) x vs

/-- The arguments of a call: the values of the operands, or the operands as they are. -/
def arguments (operands : List Value) (evaluated : Bool) : Plan (List Value) :=
  if evaluated then evalEach 1 operands else pure operands

/-- Binds operands to parameters: checks their number, and pairs the arguments with them. -/
def bindOperands (p : ParamList α) (operands : List Value) (evaluated : Bool)
    (description : String) : Plan (List (α × Value)) := do
  Plan.ofExcept (requireArity p.arityRule p.positional.length operands.length description)
  let args ← arguments operands evaluated
  pure (p.pair args)

end MiniLisp
