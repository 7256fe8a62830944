import MiniLisp.Evaluation

/-!
# Moments of an evaluation

An evaluation goes through moments, and in some of them it is about to enter a body. They are read
off the plan of the form, next to what the plan does to the machine.
-/

namespace MiniLisp

/-- The form that is being evaluated, how many bodies are active, how many expansions are being
evaluated, and whether the form is about to enter another body. -/
structure Moment where
  form : Value
  bodies : Nat
  expansions : Nat
  entering : Bool

def Moment.inExpansion (mo : Moment) : Moment := { mo with expansions := mo.expansions + 1 }

def Machine.moment (m : Machine) (form : Value) : Moment := ⟨form, m.callDepth, 0, false⟩

/-- The moments after a result; there are none after an error. -/
def Outcome.andThen (next : α → Machine → List Moment) : Outcome α × Machine → List Moment
  | (.value a, m) => next a m
  | _ => []

/-- The moments of a plan, as part of what the form does, that begins with the given machine, in
order; the evaluation of another form has the moments `inner`. -/
def Plan.moments (ctx : Context) (ev : Value → Eval Value)
    (inner : Value → Machine → List Moment) (form : Value) : Plan α → Machine → List Moment
  | .pure _, m => [m.moment form]
  | .bind x f, m => x.moments ctx ev inner form m ++
    Outcome.andThen (fun a => (f a).moments ctx ev inner form) (x.run ctx ev m)
  | .ofExcept _, m => [m.moment form]
  | .within _ x, m => x.moments ctx ev inner form m
  | .eval v, m => inner v m
  | .emit _, m => [m.moment form]
  | .resolve _, m => [m.moment form]
  | .define _ _, m => [m.moment form]
  | .assign _ _, m => [m.moment form]
  | .inScope bindings x, m => x.moments ctx ev inner form { m with env := m.env.enter bindings }
  | .body _ _ x, m => ⟨form, m.callDepth, 0, true⟩ ::
    if ctx.maxDepth ≠ 0 ∧ ctx.maxDepth ≤ m.callDepth then []
    else x.moments ctx ev inner form { m with callDepth := m.callDepth + 1 }
  | .expansion _ x, m => (x.moments ctx ev inner form m).map Moment.inExpansion

/-- The moments of an evaluation in which evaluations nest at most `fuel` deep. -/
def moments (ctx : Context) : Nat → Value → Machine → List Moment
  | 0, v, m => [m.moment v]
  | fuel + 1, v, m => (Plan.step ctx v).moments ctx (evaluate ctx fuel) (moments ctx fuel) v m

/-- In the last of the moments the form is about to enter a body, although no fewer bodies than the
limit are active already. -/
def EndsFull (limit : Int) (ms : List Moment) (form : Value) : Prop :=
  ∃ mo, ms.getLast? = some mo ∧ mo.form = form ∧ mo.entering = true ∧ limit ≤ mo.bodies

namespace EndsFull

variable {limit : Int} {ms : List Moment} {form : Value}

theorem append (h : EndsFull limit ms form) (before : List Moment) :
    EndsFull limit (before ++ ms) form := by
  obtain ⟨mo, hlast, hmo⟩ := h
  exact ⟨mo, by rw [List.getLast?_append, hlast, Option.some_or], hmo⟩

theorem inExpansion (h : EndsFull limit ms form) :
    EndsFull limit (ms.map Moment.inExpansion) form := by
  obtain ⟨mo, hlast, hmo⟩ := h
  exact ⟨mo.inExpansion, by rw [List.getLast?_map, hlast, Option.map_some], hmo⟩

end EndsFull

end MiniLisp
