import MiniLisp.Diagnostic
import MiniLisp.Interpreter
import MiniLisp.Proofs.Evaluation.Culprit
import MiniLisp.Proofs.Locate

/-!
# Where a failed top-level evaluation points

The frames of an error at the top level are a whole trail. Main statements: each of its paths leads
to a part of the form it belongs to and is shown in full, each but the innermost goes on at the head
of a call, and the innermost one ends at what the cause speaks of.
-/

namespace MiniLisp

/-- The path of a frame leads to the head of a call. -/
def Frame.AtHead (f : Frame) : Prop :=
  ∃ path head operands, f.path = path ++ [0] ∧
    f.form.descend? path = some (.list (head :: operands))

theorem Frame.AtHead.descend {f : Frame} (h : f.AtHead) :
    ∃ head, f.form.descend? f.path = some head := by
  obtain ⟨path, head, operands, hpath, hcall⟩ := h
  refine ⟨head, ?_⟩
  rw [hpath, Value.descend?_append, hcall]
  rfl

namespace Trail

variable {ctx : Context} {full : Value → Prop} {cause : EvalCause} {form : Value} {path : Path}
  {frames : List Frame}

/-- Every frame of a trail but the innermost leads to the head of a call. -/
theorem atHead (h : Trail ctx full cause form path frames) (label : Option String) :
    ∀ f ∈ (⟨form, path, label⟩ :: frames : List Frame).dropLast, f.AtHead := by
  induction h generalizing label with
  | here => intro f hf; cases hf
  | refused _ hpart _ =>
    intro f hf
    rw [List.dropLast_cons_cons, List.dropLast_singleton, List.mem_singleton] at hf
    subst hf
    exact ⟨_, _, _, rfl, hpart⟩
  | entered hpart _ ih =>
    intro f hf
    rw [List.dropLast_cons_cons, List.mem_cons] at hf
    rcases hf with rfl | hf
    · exact ⟨_, _, _, rfl, hpart⟩
    · exact ih _ f hf

end Trail

/-- The innermost frame of an error, with the others from the inside out: it ends at what the cause
speaks of; or it holds the value that could not be applied, and the next one leads to the head of
the call, under whose name the value was called. -/
inductive EvalCause.EndsAt (ctx : Context) (full : Value → Prop) (cause : EvalCause) (f : Frame)
    (rest : List Frame) : Prop
  | blamed {culprit : Value} (hpart : f.form.descend? f.path = some culprit)
      (hblames : cause.Blames ctx full culprit) : EndsAt ctx full cause f rest
  | refused {v head : Value} {operands : List Value} {path : Path} {name : Option String}
      {g : Frame} {more : List Frame} (hcause : cause = .notApplicable v name)
      (hform : f.form = v) (hpath : f.path = []) (hrest : rest = g :: more)
      (hhead : g.path = path ++ [0])
      (hcall : g.form.descend? path = some (.list (head :: operands)))
      (hname : calledName ctx head = name) : EndsAt ctx full cause f rest

namespace EvalCause.EndsAt

variable {ctx : Context} {full : Value → Prop} {cause : EvalCause} {f : Frame} {rest : List Frame}

theorem append (h : EndsAt ctx full cause f rest) (more : List Frame) :
    EndsAt ctx full cause f (rest ++ more) := by
  cases h with
  | blamed hpart hblames => exact .blamed hpart hblames
  | refused hcause hform hpath hrest hhead hcall hname =>
    exact .refused hcause hform hpath (congrArg (· ++ more) hrest) hhead hcall hname

theorem descend (h : EndsAt ctx full cause f rest) :
    ∃ culprit, f.form.descend? f.path = some culprit := by
  cases h with
  | blamed hpart _ => exact ⟨_, hpart⟩
  | refused _ _ hpath _ _ _ _ =>
    rw [hpath]
    exact ⟨f.form, rfl⟩

end EvalCause.EndsAt

theorem Trail.endsAt {ctx : Context} {full : Value → Prop} {cause : EvalCause} {form : Value}
    {path : Path} {frames : List Frame} (h : Trail ctx full cause form path frames)
    (label : Option String) :
    ∃ f rest, (⟨form, path, label⟩ :: frames : List Frame).reverse = f :: rest ∧
      cause.EndsAt ctx full f rest := by
  induction h generalizing label with
  | here hpart hblames => exact ⟨_, [], rfl, .blamed hpart hblames⟩
  | refused hcause hpart hname =>
    exact ⟨_, _, rfl, .refused hcause rfl rfl rfl rfl hpart hname⟩
  | @entered form head operands path frame frames hpart _ ih =>
    obtain ⟨f, rest, hrev, hends⟩ := ih frame.label
    refine ⟨f, rest ++ [⟨form, path ++ [0], label⟩], ?_, hends.append _⟩
    rw [List.reverse_cons, hrev, List.cons_append]

namespace Interpreter

/-- The moments of an evaluation at the top level. -/
def moments (it : Interpreter) (form : Value) : List Moment :=
  MiniLisp.moments it.context it.nesting form (it.emit (.evaluating form)).machine

/-- The error of a top-level form has the form as its outermost frame, and its frames are a trail;
or the interpreter could not follow the evaluation, and the form is the only frame. -/
theorem evalTopLevel_error {it : Interpreter} {form : Value} {e : EvalError}
    (h : (it.evalTopLevel form).1 = .error (.eval e)) :
    ∃ path frames, e.path = [] ∧ e.frames = ⟨form, path, some topLevelLabel⟩ :: frames ∧
      (Trail it.context (EndsFull it.maxDepth (it.moments form)) e.cause form path frames ∨
        e.cause = .exhausted ∧ path = [] ∧ frames = []) := by
  have hs := sited_evaluate it.context it.nesting form (it.emit (.evaluating form)).machine
  replace h := conclude_of_evalTopLevel h
  cases hx : (evaluate it.context it.nesting form (it.emit (.evaluating form)).machine).1 with
  | value v =>
    rw [hx] at h
    cases h
  | error e' =>
    rw [hx] at h hs
    cases h
    exact ⟨e'.path, e'.frames, rfl, rfl, .inl hs⟩
  | exhausted =>
    rw [hx] at h
    cases h
    exact ⟨[], [], rfl, rfl, .inr ⟨rfl, rfl, rfl⟩⟩

end Interpreter

namespace Trail

variable {ctx : Context} {full : Value → Prop} {cause : EvalCause} {form : Value} {path : Path}
  {frames : List Frame}

theorem atHead_of_mem_tail (h : Trail ctx full cause form path frames) (label : Option String) :
    ∀ f ∈ (⟨form, path, label⟩ :: frames : List Frame).reverse.tail, f.AtHead := by
  intro f hf
  rw [List.tail_reverse, List.mem_reverse] at hf
  exact h.atHead label f hf

theorem descend_of_mem (h : Trail ctx full cause form path frames) (label : Option String) :
    ∀ f ∈ (⟨form, path, label⟩ :: frames : List Frame).reverse,
      ∃ part, f.form.descend? f.path = some part := by
  intro f hf
  have htail := h.atHead_of_mem_tail label
  obtain ⟨g, rest, hrev, hends⟩ := h.endsAt label
  rw [hrev] at hf htail
  rcases List.mem_cons.mp hf with rfl | hf
  · exact hends.descend
  · exact (htail f hf).descend

end Trail

theorem symbol_of_calledName {ctx : Context} {head : Value} {name : String}
    (h : calledName ctx head = some name) : ∃ s, head = .symbol s ∧ ctx.names s = some name := by
  cases head with
  | symbol s => exact ⟨s, rfl, h⟩
  | _ => cases h

/-- Every location of an error at the top level is real. No path is left over; the outermost frame
is for the form itself; the path of every frame stays inside its form, so that the text shown is
that of the part it leads to; and every frame but the innermost leads to the head of a call. -/
theorem error_locations_real {it : Interpreter} {form : Value} {e : EvalError}
    (h : (it.evalTopLevel form).1 = .error (.eval e)) :
    e.path = [] ∧
    (∃ path, e.backtrace.getLast? = some ⟨form, path, some "in"⟩) ∧
    (∀ f ∈ e.backtrace, ∃ part, f.form.descend? f.path = some part ∧
      (locate it.names f.form f.path).highlighted = part.chars it.names) ∧
    ∀ f ∈ e.backtrace.tail, f.AtHead := by
  obtain ⟨path, frames, hpath, hframes, htrail⟩ := Interpreter.evalTopLevel_error h
  have hback : e.backtrace = (⟨form, path, some "in"⟩ :: frames : List Frame).reverse :=
    congrArg List.reverse hframes
  rw [hback]
  refine ⟨hpath, ⟨path, by rw [List.getLast?_reverse]; rfl⟩, ?_, ?_⟩
  · intro f hf
    have hpart : ∃ part, f.form.descend? f.path = some part := by
      rcases htrail with htrail | ⟨_, rfl, rfl⟩
      · exact htrail.descend_of_mem _ f hf
      · rw [List.reverse_singleton, List.mem_singleton] at hf
        exact ⟨form, by rw [hf]; rfl⟩
    obtain ⟨part, hpart⟩ := hpart
    exact ⟨part, hpart, highlighted_locate hpart⟩
  · rcases htrail with htrail | ⟨_, rfl, rfl⟩
    · exact htrail.atHead_of_mem_tail _
    · intro f hf
      cases hf

/-- The function `(fn (first) (begin first (length first)))`. -/
def lengthFunction : Value :=
  .list [.symbol Symbol.fn, .list [.symbol ⟨23⟩],
    .list [.symbol ⟨12⟩, .symbol ⟨23⟩, .list [.symbol ⟨32⟩, .symbol ⟨23⟩]]]

/-- Its call with a boolean, which has no length. -/
def lengthOfBoolean : Value := .list [lengthFunction, .bool true]

theorem error_locations_real_lengthOfBoolean :
    ∃ e, ((Interpreter.fresh 200).evalTopLevel lengthOfBoolean).1 = .error (.eval e) ∧
      e.backtrace = [⟨lengthFunction, [2, 2, 1], none⟩, ⟨lengthOfBoolean, [0], some "in"⟩] ∧
      ∀ f ∈ e.backtrace.tail, f.AtHead := by
  have h : ((Interpreter.fresh 200).evalTopLevel lengthOfBoolean).1
      = .error (.eval ⟨.typeFault .expectedList, [],
        [⟨lengthOfBoolean, [0], some "in"⟩, ⟨lengthFunction, [2, 2, 1], none⟩]⟩) := by rfl
  exact ⟨_, h, rfl, (error_locations_real h).2.2.2⟩

/-- The innermost location of an error at the top level is the culprit: an unbound symbol, an empty
list, a list of the wrong length, the rest mark, the call for which one body too many would have
been active, or the value that could not be applied; the head that it was applied through is then
what the next frame leads to. The call is the one that this evaluation comes to in its last moment:
it is about to enter a body, and no fewer bodies than the limit are active. -/
theorem innermost_location_culprit {it : Interpreter} {form : Value} {e : EvalError}
    (h : (it.evalTopLevel form).1 = .error (.eval e)) :
    ∃ (f : Frame) (rest : List Frame) (culprit : Value), e.backtrace = f :: rest ∧
      f.form.descend? f.path = some culprit ∧
      (∀ name, e.cause = .unbound name →
        ∃ s, culprit = .symbol s ∧ it.names.nameOf s = name) ∧
      (e.cause = .emptyApplication → culprit = .list []) ∧
      (∀ description rule expected actual, e.cause = .arity description rule expected actual →
        rule.admits expected actual = false ∧
        ∃ items, culprit = .list items ∧ (items.length = actual ∨ items.length = actual + 1)) ∧
      (∀ fault, e.cause = .badDefinition fault → culprit = .symbol Symbol.rest) ∧
      (∀ limit, e.cause = .tooDeep limit → limit = it.maxDepth ∧
        (∃ head operands, culprit = .list (head :: operands)) ∧
        ∃ mo, (it.moments form).getLast? = some mo ∧ mo.form = culprit ∧ mo.entering = true ∧
          limit ≤ mo.bodies) ∧
      (∀ v name, e.cause = .notApplicable v name → culprit = v ∧
        ∃ (g : Frame) (more : List Frame) (path : Path) (head : Value) (operands : List Value),
          rest = g :: more ∧ g.path = path ++ [0] ∧
          g.form.descend? path = some (.list (head :: operands)) ∧
          g.form.descend? g.path = some head ∧
          ∀ n, name = some n → ∃ s, head = .symbol s ∧ it.names s = some n) := by
  obtain ⟨path, frames, _, hframes, htrail⟩ := Interpreter.evalTopLevel_error h
  have hback : e.backtrace = (⟨form, path, some "in"⟩ :: frames : List Frame).reverse :=
    congrArg List.reverse hframes
  rcases htrail with htrail | ⟨hcause, rfl, rfl⟩
  · obtain ⟨f, rest, hrev, hends⟩ := htrail.endsAt (some "in")
    cases hends with
    | blamed hpart hblames =>
      refine ⟨f, rest, _, hback.trans hrev, hpart, ?_, ?_, ?_, ?_, ?_, ?_⟩
      · intro name hcause
        rw [hcause] at hblames
        exact hblames
      · intro hcause
        rw [hcause] at hblames
        exact hblames
      · intro description rule expected actual hcause
        rw [hcause] at hblames
        exact hblames
      · intro fault hcause
        rw [hcause] at hblames
        exact hblames.2
      · intro limit hcause
        rw [hcause] at hblames
        obtain ⟨hlimit, hcall, hlast⟩ := hblames
        exact ⟨hlimit, hcall, by rw [hlimit]; exact hlast⟩
      · intro v name hcause
        rw [hcause] at hblames
        exact hblames.elim
    | @refused v head operands path name g more hcause hform hpath hrest hhead hcall hname =>
      refine ⟨f, rest, f.form, hback.trans hrev, by rw [hpath]; rfl, ?_⟩
      rw [hcause]
      refine ⟨?_, ?_, ?_, ?_, ?_, ?_⟩
      case refine_6 =>
        intro w n hw
        cases hw
        refine ⟨hform, g, more, path, head, operands, hrest, hhead, hcall, ?_, ?_⟩
        · rw [hhead, Value.descend?_append, hcall]
          rfl
        · intro m hm
          exact symbol_of_calledName (hname.trans hm)
      all_goals intros; contradiction
  · refine ⟨_, [], form, hback, rfl, ?_⟩
    rw [hcause]
    refine ⟨?_, ?_, ?_, ?_, ?_, ?_⟩ <;> intros <;> contradiction

/-- The form `(let ((first #t)) (first #f))`. -/
def callOfBoolean : Value :=
  .list [.symbol ⟨11⟩, .list [.list [.symbol ⟨23⟩, .bool true]],
    .list [.symbol ⟨23⟩, .bool false]]

theorem innermost_location_culprit_callOfBoolean :
    ∃ e, ((Interpreter.fresh 200).evalTopLevel callOfBoolean).1 = .error (.eval e) ∧
      e.cause = .notApplicable (.bool true) (some "first") ∧
      ∃ f rest, e.backtrace = f :: rest ∧ f.form.descend? f.path = some (.bool true) ∧
        ∃ (g : Frame) (more : List Frame) (s : Symbol), rest = g :: more ∧
          g.form.descend? g.path = some (.symbol s) ∧
          (Interpreter.fresh 200).names s = some "first" := by
  have h : ((Interpreter.fresh 200).evalTopLevel callOfBoolean).1
      = .error (.eval ⟨.notApplicable (.bool true) (some "first"), [],
        [⟨callOfBoolean, [2, 0], some "in"⟩, ⟨.bool true, [], some "first"⟩]⟩) := by rfl
  obtain ⟨f, rest, culprit, hback, hpart, _, _, _, _, _, hvalue⟩ := innermost_location_culprit h
  obtain ⟨rfl, g, more, path, head, operands, hrest, _, _, hhead, hname⟩ := hvalue _ _ rfl
  obtain ⟨s, rfl, hs⟩ := hname "first" rfl
  exact ⟨_, h, rfl, f, rest, hback, hpart, g, more, s, hrest, hhead, hs⟩

/-- The third call of a function that calls itself is the last moment under a limit of two. -/
example :
    let call : Value := .list [.symbol ⟨8⟩]
    let it : Interpreter := ⟨Reader.ofSymbols Symbols.initial,
      ⟨⟨[], ⟨[(⟨8⟩, .procedure .function ⟨[], none⟩ [call])]⟩⟩, 0, []⟩, 2, .roomy⟩
    (it.moments call).getLast? = some ⟨call, 2, 0, true⟩ := by rfl

end MiniLisp
