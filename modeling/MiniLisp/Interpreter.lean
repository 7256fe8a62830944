import MiniLisp.Evaluation
import MiniLisp.Reader
import MiniLisp.Settings
import MiniLisp.Value.Printer

/-!
# Interpreters

An interpreter owns a table of symbols, a reader that keeps unfinished forms between chunks, and an
environment in which definitions persist. A fresh one binds the special forms and the native
functions. It runs on the stack of a host: each evaluation at the top level first asks for a stack
on which the bodies that may be active fit.
-/

namespace MiniLisp

/-- Interns the names of the special forms and binds them. -/
def internSpecials (symbols : Symbols) : List SpecialForm → List (Symbol × Value) × Symbols
  | [] => ([], symbols)
  | f :: fs =>
    let (s, symbols) := symbols.intern f.name
    let (bindings, symbols) := internSpecials symbols fs
    ((s, .special f) :: bindings, symbols)

/-- Interns the names of the native functions, each followed by its parameters, and binds the
functions. -/
def internNatives (symbols : Symbols) : List Native → List (Symbol × Value) × Symbols
  | [] => ([], symbols)
  | n :: ns =>
    let (s, symbols) := symbols.intern n.name
    let (_, symbols) := symbols.internAll (n.params.positional ++ n.params.rest.toList)
    let (bindings, symbols) := internNatives symbols ns
    ((s, .native n) :: bindings, symbols)

/-- The environment that binds the special forms and the native functions, and the table with all
their names. -/
def initialBindings : List (Symbol × Value) × Symbols :=
  let (specials, symbols) := internSpecials Symbols.initial SpecialForm.all
  let (natives, symbols) := internNatives symbols Native.all
  (specials ++ natives, symbols)

/-- How deep evaluations may nest on the stack of the host, the limit on that stack in frames, and
in which depths of the environment a scope can be closed when the stack is exhausted. -/
structure Host where
  nesting : Nat
  stackLimit : Int
  closes : Nat → Bool

namespace Host

/-- A host that nests evaluations deeply and always has room for closing a scope. -/
def roomy : Host := ⟨10000, 1000, fun _ => true⟩

/-- The frames that one active body may use. -/
def framesPerBody : Int := 40

/-- The greatest limit that a host accepts for its stack. -/
def greatestLimit : Int := 2147483647

/-- The limit on the stack can be raised so far that so many active bodies fit; it is never
lowered. -/
def hasRoom (host : Host) (maxDepth : Int) : Bool :=
  let needed := host.stackLimit + maxDepth * framesPerBody
  decide (needed ≤ host.stackLimit) || decide (needed ≤ greatestLimit)

end Host

/-- A reader with its table of symbols, a machine, the number of bodies that may be active at once,
and the host. -/
structure Interpreter where
  reader : Reader
  machine : Machine
  maxDepth : Int
  host : Host

/-- What makes a reading or an evaluation fail. The host fails if it does not accept the limit that
its stack would need. -/
inductive Failure where
  | read (e : ReadError)
  | eval (e : EvalError)
  | host

namespace Interpreter

def fresh (maxDepth : Int) : Interpreter :=
  let (bindings, symbols) := initialBindings
  ⟨Reader.ofSymbols symbols, ⟨Environment.empty.update bindings, 0, []⟩, maxDepth, .roomy⟩

def symbols (it : Interpreter) : Symbols := it.reader.symbols

def names (it : Interpreter) : Naming := it.symbols.naming

def env (it : Interpreter) : Environment := it.machine.env

def nesting (it : Interpreter) : Nat := it.host.nesting

/-- The interpreter with one more event in its log. -/
def emit (it : Interpreter) (event : Event) : Interpreter :=
  { it with machine := { it.machine with log := event :: it.machine.log } }

/-- The interpreter after a reading, with a note of the frames that were dropped. -/
def afterReading (it : Interpreter) (reader : Reader) (discarded : Nat) : Interpreter :=
  let it := { it with reader := reader }
  if discarded = 0 then it else it.emit (.discarded discarded)

theorem reader_afterReading {it : Interpreter} (reader : Reader) (discarded : Nat) :
    (it.afterReading reader discarded).reader = reader := by
  simp only [afterReading]
  split <;> rfl

/-- The second interpreter runs on the host of the first and under its limit. -/
structure SameLimits (it it' : Interpreter) : Prop where
  host : it'.host = it.host
  maxDepth : it'.maxDepth = it.maxDepth

theorem SameLimits.trans {it it' it'' : Interpreter} (h : it.SameLimits it')
    (h' : it'.SameLimits it'') : it.SameLimits it'' :=
  ⟨h'.host.trans h.host, h'.maxDepth.trans h.maxDepth⟩

theorem SameLimits.hasRoom {it it' : Interpreter} (h : it.SameLimits it') :
    it'.host.hasRoom it'.maxDepth = it.host.hasRoom it.maxDepth := by
  rw [h.host, h.maxDepth]

theorem sameLimits_afterReading (it : Interpreter) (reader : Reader) (discarded : Nat) :
    it.SameLimits (it.afterReading reader discarded) := by
  simp only [afterReading]
  split <;> exact ⟨rfl, rfl⟩

def context (it : Interpreter) : Context := ⟨it.names, it.maxDepth, it.host.closes⟩

/-- Feeds a chunk to the reader and returns the forms that it completed. -/
def read (it : Interpreter) (chunk : String) : Except ReadError (List Value) × Interpreter :=
  let reading := it.reader.feed chunk
  (reading.result, it.afterReading reading.reader reading.discarded)

theorem sameLimits_read (it : Interpreter) (chunk : String) : it.SameLimits (it.read chunk).2 :=
  sameLimits_afterReading it _ _

def finish (it : Interpreter) : Except ReadError Unit × Interpreter :=
  let reading := it.reader.finish
  (reading.result, it.afterReading reading.reader reading.discarded)

def reset (it : Interpreter) : Interpreter :=
  let reading := it.reader.reset
  it.afterReading reading.reader reading.discarded

/-- The label of the frame for a form at the top level. -/
def topLevelLabel : String := "in"

/-- The result of an outcome at the top level: the form itself becomes the outermost frame of an
error, and the only one if there was no answer. -/
def conclude (form : Value) : Outcome Value → Except Failure Value
  | .value v => .ok v
  | .error e => .error (.eval (e.leaving form (some topLevelLabel)))
  | .exhausted => .error (.eval ((EvalError.of .exhausted).leaving form (some topLevelLabel)))

def evalForm (it : Interpreter) (form : Value) : Except Failure Value × Machine :=
  let (outcome, machine) := evaluate it.context it.nesting form it.machine
  (conclude form outcome, machine)

/-- Evaluates a form on a stack that is large enough; without one nothing is evaluated. -/
def evalTopLevel (it : Interpreter) (form : Value) : Except Failure Value × Interpreter :=
  let it := it.emit (.evaluating form)
  let (result, machine) :=
    if it.host.hasRoom it.maxDepth then it.evalForm form else (.error .host, it.machine)
  (result, { it with machine := machine })

section

variable {it : Interpreter}

theorem evalTopLevel_of_hasRoom (h : it.host.hasRoom it.maxDepth = true) (form : Value) :
    it.evalTopLevel form
      = (((it.emit (.evaluating form)).evalForm form).1,
          { it with machine := ((it.emit (.evaluating form)).evalForm form).2 }) := by
  have hroom : (it.emit (.evaluating form)).host.hasRoom (it.emit (.evaluating form)).maxDepth
      = true := h
  simp only [evalTopLevel, hroom, ite_true]
  rfl

theorem evalTopLevel_of_noRoom (h : it.host.hasRoom it.maxDepth = false) (form : Value) :
    it.evalTopLevel form = (.error .host, it.emit (.evaluating form)) := by
  have hroom : (it.emit (.evaluating form)).host.hasRoom (it.emit (.evaluating form)).maxDepth
      = false := h
  simp only [evalTopLevel, hroom, Bool.false_eq_true, ite_false]

/-- An error at the top level is what the evaluation of the form comes to. -/
theorem conclude_of_evalTopLevel {form : Value} {e : EvalError}
    (h : (it.evalTopLevel form).1 = .error (.eval e)) :
    conclude form (evaluate it.context it.nesting form (it.emit (.evaluating form)).machine).1
      = .error (.eval e) := by
  cases hroom : it.host.hasRoom it.maxDepth with
  | true =>
    rw [evalTopLevel_of_hasRoom hroom] at h
    exact h
  | false =>
    rw [evalTopLevel_of_noRoom hroom] at h
    cases h

theorem evalTopLevel_error_cases {form : Value} {f : Failure}
    (h : (it.evalTopLevel form).1 = .error f) :
    (∃ e, f = .eval e) ∨ f = .host ∧ it.host.hasRoom it.maxDepth = false := by
  cases hroom : it.host.hasRoom it.maxDepth with
  | true =>
    rw [evalTopLevel_of_hasRoom hroom, evalForm] at h
    generalize evaluate _ _ _ _ = r at h
    obtain ⟨v | e | _, m⟩ := r <;> cases h
    · exact .inl ⟨_, rfl⟩
    · exact .inl ⟨_, rfl⟩
  | false =>
    rw [evalTopLevel_of_noRoom hroom] at h
    cases h
    exact .inr ⟨rfl, rfl⟩

end

theorem sameLimits_evalTopLevel (it : Interpreter) (form : Value) :
    it.SameLimits (it.evalTopLevel form).2 := ⟨rfl, rfl⟩

/-- Evaluates forms in order, up to the first that fails. -/
def evalForms (it : Interpreter) : List Value → Except Failure (List Value) × Interpreter
  | [] => (.ok [], it)
  | form :: forms => match it.evalTopLevel form with
    | (.error e, it) => (.error e, it)
    | (.ok v, it) => match it.evalForms forms with
      | (.error e, it) => (.error e, it)
      | (.ok vs, it) => (.ok (v :: vs), it)

/-- Goes on with the forms behind one that has been evaluated, unless it failed. -/
def evalBehind (forms : List Value) :
    Except Failure Value × Interpreter → Except Failure (List Value) × Interpreter
  | (.error e, it) => (.error e, it)
  | (.ok v, it) => ((it.evalForms forms).1.map (v :: ·), (it.evalForms forms).2)

theorem evalForms_cons (it : Interpreter) (form : Value) (forms : List Value) :
    it.evalForms (form :: forms) = evalBehind forms (it.evalTopLevel form) := by
  rw [evalForms]
  rcases it.evalTopLevel form with ⟨e | v, it'⟩
  · rfl
  · dsimp only [evalBehind]
    rcases it'.evalForms forms with ⟨e | vs, it''⟩ <;> rfl

def evalEachForm (it : Interpreter) : List Value → List (Except Failure Value) × Interpreter
  | [] => ([], it)
  | form :: forms =>
    let (result, it) := it.evalTopLevel form
    let (results, it) := it.evalEachForm forms
    (result :: results, it)

theorem sameLimits_evalForms (it : Interpreter) (forms : List Value) :
    it.SameLimits (it.evalForms forms).2 := by
  induction forms generalizing it with
  | nil => exact ⟨rfl, rfl⟩
  | cons form forms ih =>
    have htop := it.sameLimits_evalTopLevel form
    rw [evalForms_cons]
    rcases heval : it.evalTopLevel form with ⟨f | v, it'⟩ <;> rw [heval] at htop
    · exact htop
    · exact htop.trans (ih it')

theorem sameLimits_evalEachForm (it : Interpreter) (forms : List Value) :
    it.SameLimits (it.evalEachForm forms).2 := by
  induction forms generalizing it with
  | nil => exact ⟨rfl, rfl⟩
  | cons form forms ih => exact (it.sameLimits_evalTopLevel form).trans (ih _)

section

variable {it : Interpreter} {forms : List Value}

/-- A sequence of forms fails as one of them does. -/
theorem exists_of_evalForms_error {f : Failure} (h : (it.evalForms forms).1 = .error f) :
    ∃ (it' : Interpreter) (form : Value), it.SameLimits it' ∧
      (it'.evalTopLevel form).1 = .error f := by
  induction forms generalizing it with
  | nil => cases h
  | cons form forms ih =>
    have htop := it.sameLimits_evalTopLevel form
    rw [evalForms_cons] at h
    rcases heval : it.evalTopLevel form with ⟨f' | v, it'⟩ <;> rw [heval] at h htop
    · cases h
      exact ⟨it, form, ⟨rfl, rfl⟩, congrArg Prod.fst heval⟩
    · have hrest : (it'.evalForms forms).1 = .error f := by
        rw [evalBehind] at h
        cases hforms : (it'.evalForms forms).1 with
        | error f' =>
          rw [hforms] at h
          exact h
        | ok vs =>
          rw [hforms] at h
          cases h
      obtain ⟨it'', form', hsame, hfails⟩ := ih hrest
      exact ⟨it'', form', htop.trans hsame, hfails⟩

theorem exists_of_mem_evalEachForm {r : Except Failure Value} (h : r ∈ (it.evalEachForm forms).1) :
    ∃ (it' : Interpreter) (form : Value), it.SameLimits it' ∧ (it'.evalTopLevel form).1 = r := by
  induction forms generalizing it with
  | nil => cases h
  | cons form forms ih =>
    rcases List.mem_cons.mp h with hr | hr
    · exact ⟨it, form, ⟨rfl, rfl⟩, hr.symm⟩
    · have hrest : r ∈ ((it.evalTopLevel form).2.evalEachForm forms).1 := hr
      obtain ⟨it', form', hsame, hr'⟩ := ih hrest
      exact ⟨it', form', (it.sameLimits_evalTopLevel form).trans hsame, hr'⟩

end

/-- Reads a complete source; the frames that the reader keeps open are not touched. -/
def readSource (it : Interpreter) (source : String) :
    Except ReadError (List Value) × Interpreter :=
  let reading := (Reader.ofSymbols it.symbols).readAll source
  (reading.result,
    it.afterReading { it.reader with symbols := reading.reader.symbols } reading.discarded)

theorem sameLimits_readSource (it : Interpreter) (source : String) :
    it.SameLimits (it.readSource source).2 :=
  SameLimits.trans ⟨rfl, rfl⟩ (sameLimits_afterReading { it with reader := _ } _ _)

/-- Reads a complete source and evaluates its forms in order, up to the first that fails. -/
def evalSource (it : Interpreter) (source : String) :
    Except Failure (List Value) × Interpreter :=
  match it.readSource source with
  | (.error e, it) => (.error (.read e), it)
  | (.ok forms, it) => it.evalForms forms

section

variable {it it' : Interpreter} {source : String}

theorem evalSource_of_error {e : ReadError} (h : it.readSource source = (.error e, it')) :
    it.evalSource source = (.error (.read e), it') := by
  rw [evalSource, h]

theorem evalSource_of_ok {forms : List Value} (h : it.readSource source = (.ok forms, it')) :
    it.evalSource source = it'.evalForms forms := by
  rw [evalSource, h]

theorem sameLimits_evalSource (it : Interpreter) (source : String) :
    it.SameLimits (it.evalSource source).2 := by
  have hread := it.sameLimits_readSource source
  rcases hresult : it.readSource source with ⟨e | forms, it'⟩ <;> rw [hresult] at hread
  · rw [evalSource_of_error hresult]
    exact hread
  · rw [evalSource_of_ok hresult]
    exact hread.trans (sameLimits_evalForms it' forms)

end

/-- The symbol of a name, and its value if it has one. -/
def resolve (it : Interpreter) (name : String) : Option Value × Interpreter :=
  let (s, symbols) := it.symbols.intern name
  (it.env.resolve? s, { it with reader := { it.reader with symbols := symbols } })

/-- The log since the last time it was taken, the oldest event first. -/
def takeLog (it : Interpreter) : List Event × Interpreter :=
  (it.machine.log.reverse, { it with machine := { it.machine with log := [] } })

end Interpreter

def Event.text (names : Naming) : Event → String
  | .evaluating form => "eval " ++ form.print names
  | .expanded name => "macro " ++ name.getD "<anonymous>" ++ " expanded"
  | .discarded count => "discarding " ++ toString count ++ " open reader frame(s)"

end MiniLisp
