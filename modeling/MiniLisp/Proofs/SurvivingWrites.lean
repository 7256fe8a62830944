import Mathlib.Data.List.Nodup
import Mathlib.Data.Nat.PSub
import MiniLisp.Evaluation.Machine

/-!
# Surviving writes

An environment is a stack of scopes that change in place. What it holds is decided by the history of
the writes to it: a scope that is still open has the bindings that were written while it was the
topmost one, in their order, and what was written to closed scopes is gone. A block that closes what
it opens gives back the scopes that it found, with its global definitions.
Main statement: `environment_holds_surviving_writes`.
-/

namespace MiniLisp

/-- What is done to an environment. A sequence holds what really is done: what an exception keeps
from being done is left out of it, and an action that fails is followed by what is done then. -/
inductive Action where
  | define (s : Symbol) (v : Value)
  | assign (s : Symbol) (v : Value)
  | update (bindings : List (Symbol × Value))
  | push
  | pop
  /-- A block in a scope of its own, in which actions are performed before it ends one way or
  another. -/
  | scope (bindings : List (Symbol × Value)) (inside : List Action) (ending : Outcome Unit)

mutual

def Action.perform : Action → Eval Unit
  | .define s v => Eval.define s v
  | .assign s v => Eval.assign s v
  | .update bindings => fun m => (.value (), { m with env := m.env.update bindings })
  | .push => fun m => (.value (), { m with env := m.env.push })
  | .pop => fun m => match m.env.pop with
    | .ok env => (.value (), { m with env := env })
    | .error e => (.error e, m)
  | .scope bindings inside ending =>
    Eval.inScope (fun _ => true) bindings fun m => (ending, Action.performAll inside m)

def Action.performAll : List Action → Machine → Machine
  | [], m => m
  | a :: as, m => Action.performAll as (a.perform m).2

end

namespace Action

theorem performAll_append (as bs : List Action) (m : Machine) :
    performAll (as ++ bs) m = performAll bs (performAll as m) := by
  induction as generalizing m with
  | nil => rfl
  | cons a as ih => exact ih (a.perform m).2

/-- How a block begins. -/
def opening (bindings : List (Symbol × Value)) : List Action :=
  .push :: bindings.map fun b => .assign b.1 b.2

theorem performAll_opening (bindings : List (Symbol × Value)) (m : Machine) :
    performAll (opening bindings) m = { m with env := m.env.enter bindings } := by
  have key : ∀ (bs : List (Symbol × Value)) (m : Machine),
      performAll (bs.map fun b => .assign b.1 b.2) m
        = { m with env := bs.foldl (fun env b => env.assign b.1 b.2) m.env } := by
    intro bs
    induction bs with
    | nil => exact fun m => rfl
    | cons b bs ih => exact fun m => ih { m with env := m.env.assign b.1 b.2 }
  exact key bindings { m with env := m.env.push }

/-- A block is what it opens with, what is inside and a pop, and ends as it does unless the pop
fails. -/
theorem perform_scope_eq (bindings : List (Symbol × Value)) (inside : List Action)
    (ending : Outcome Unit) (m : Machine) :
    (scope bindings inside ending).perform m
      = match pop.perform (performAll (opening bindings ++ inside) m) with
        | (.value _, m') => (ending, m')
        | failure => failure := by
  rw [performAll_append, performAll_opening]
  simp only [perform, Eval.inScope, Bool.or_true, ite_true]
  obtain ⟨⟨inner, global⟩, callDepth, log⟩ :=
    performAll inside { m with env := m.env.enter bindings }
  cases inner <;> rfl

end Action

/-- The environment without its topmost scope, which stays if it is the global one. -/
def Environment.leave (env : Environment) : Environment := ⟨env.inner.tail, env.global⟩

namespace Action

theorem env_perform_pop (m : Machine) : (pop.perform m).2.env = m.env.leave := by
  obtain ⟨⟨inner, global⟩, callDepth, log⟩ := m
  rw [perform]
  cases inner <;> rfl

theorem env_perform_scope (bindings : List (Symbol × Value)) (inside : List Action)
    (ending : Outcome Unit) (m : Machine) :
    ((scope bindings inside ending).perform m).2.env
      = (performAll inside { m with env := m.env.enter bindings }).env.leave := by
  rw [← env_perform_pop, ← performAll_opening, ← performAll_append, perform_scope_eq]
  split
  · rename_i m' heq
    rw [heq]
  · rfl

end Action

/-- A binding that was written to the scope with the given number. -/
structure Write where
  scope : Nat
  binding : Symbol × Value

/-- Scopes are numbered in the order in which they are opened, the global one being number zero. A
history has the number of scopes that were opened, those of them that are open, the topmost first,
and all writes there ever were, in order. -/
structure History where
  opened : Nat
  inner : List Nat
  writes : List Write

namespace History

def fresh : History := ⟨0, [], []⟩

def stack (h : History) : List Nat := h.inner ++ [0]

def top (h : History) : Nat := h.inner.head?.getD 0

def write (h : History) (i : Nat) (bindings : List (Symbol × Value)) : History :=
  { h with writes := h.writes ++ bindings.map (Write.mk i) }

def push (h : History) : History :=
  { h with opened := h.opened + 1, inner := (h.opened + 1) :: h.inner }

/-- The topmost scope is closed, unless it is the global one. -/
def pop (h : History) : History := { h with inner := h.inner.tail }

mutual

/-- The history with one more action: definitions are writes to the global scope wherever they are
made, assignments and the bindings of a block are writes to the topmost one. -/
def record (h : History) : Action → History
  | .define s v => h.write 0 [(s, v)]
  | .assign s v => h.write h.top [(s, v)]
  | .update bindings => h.write 0 bindings
  | .push => h.push
  | .pop => h.pop
  | .scope bindings inside _ => (recordAll (h.push.write h.push.top bindings) inside).pop

def recordAll (h : History) : List Action → History
  | [] => h
  | a :: as => recordAll (h.record a) as

end

/-- The value that was written last for the symbol in the scope with the given number. -/
def lastWrite? (h : History) (i : Nat) (s : Symbol) : Option Value :=
  let forSymbol := h.writes.filter fun w => decide (w.scope = i ∧ w.binding.1 = s)
  forSymbol.getLast?.map fun w => w.binding.2

/-- What was written last in the innermost open scope with a write for the symbol. -/
def resolve? (h : History) (s : Symbol) : Option Value :=
  h.stack.findSome? fun i => h.lastWrite? i s

end History

theorem Scope.get?_putAll (scope : Scope) (bindings : List (Symbol × Value)) (s : Symbol) :
    (scope.putAll bindings).get? s
      = ((bindings.filter fun b => decide (b.1 = s)).getLast?.map Prod.snd).or (scope.get? s) := by
  induction bindings generalizing scope with
  | nil => rfl
  | cons b bindings ih =>
    have hput : (scope.putAll (b :: bindings)).get? s
        = ((scope.put b.1 b.2).putAll bindings).get? s := rfl
    rw [hput, ih, Scope.get?_put, List.filter_cons]
    by_cases hb : b.1 = s
    · simp only [hb, decide_true, ite_true, List.getLast?_cons]
      cases (bindings.filter fun b => decide (b.1 = s)).getLast? <;> rfl
    · simp only [hb, decide_false, ite_false, Bool.false_eq_true]

namespace History

variable {h : History}

def bindings (h : History) (i : Nat) : List (Symbol × Value) :=
  (h.writes.filter fun w => decide (w.scope = i)).map Write.binding

def scope (h : History) (i : Nat) : Scope := Scope.empty.putAll (h.bindings i)

def environment (h : History) : Environment := ⟨h.inner.map h.scope, h.scope 0⟩

theorem get?_scope (h : History) (i : Nat) (s : Symbol) :
    (h.scope i).get? s = h.lastWrite? i s := by
  have hfilter : ((h.bindings i).filter fun b => decide (b.1 = s))
      = (h.writes.filter fun w => decide (w.scope = i ∧ w.binding.1 = s)).map Write.binding := by
    rw [bindings, List.filter_map, List.filter_filter]
    congr 2
    funext w
    simp only [Function.comp_apply, Bool.decide_and, Bool.and_comm]
  rw [scope, Scope.get?_putAll, hfilter, List.getLast?_map, Option.map_map, Scope.get?_empty,
    Option.or_none]
  rfl

theorem resolve?_environment (h : History) (s : Symbol) :
    h.environment.resolve? s = h.resolve? s := by
  have hscopes : h.environment.scopes = h.stack.map h.scope := by
    rw [stack, List.map_append]
    rfl
  rw [Environment.resolve?, hscopes, List.findSome?_map, resolve?]
  congr 1
  funext i
  exact get?_scope h i s

theorem resolve?_eq_none_iff (h : History) (s : Symbol) :
    h.resolve? s = none ↔ ∀ w ∈ h.writes, w.binding.1 = s → w.scope ∉ h.stack := by
  simp only [resolve?, lastWrite?, List.findSome?_eq_none_iff, Option.map_eq_none_iff,
    List.getLast?_eq_none_iff, List.filter_eq_nil_iff, decide_eq_true_eq]
  constructor
  · exact fun hnone w hw hs hstack => hnone _ hstack w hw ⟨rfl, hs⟩
  · rintro hclosed i hi w hw ⟨rfl, hs⟩
    exact hclosed w hw hs hi

theorem scope_write_self (h : History) (i : Nat) (bs : List (Symbol × Value)) :
    (h.write i bs).scope i = (h.scope i).putAll bs := by
  have hbs : ((bs.map (Write.mk i)).filter fun w => decide (w.scope = i)).map Write.binding
      = bs := by
    have hall : ∀ w ∈ bs.map (Write.mk i), decide (w.scope = i) = true :=
      List.forall_mem_map.mpr fun _ _ => decide_eq_true rfl
    rw [List.filter_eq_self.mpr hall, List.map_map]
    exact List.map_id bs
  rw [scope, bindings, write, List.filter_append, List.map_append, hbs]
  exact List.foldl_append

theorem scope_write_of_ne {i j : Nat} (hij : i ≠ j) (h : History) (bs : List (Symbol × Value)) :
    (h.write j bs).scope i = h.scope i := by
  have hbs : ((bs.map (Write.mk j)).filter fun w => decide (w.scope = i)) = [] := by
    rw [List.filter_eq_nil_iff, List.forall_mem_map]
    exact fun _ _ hji => hij (of_decide_eq_true hji).symm
  rw [scope, bindings, write, List.filter_append, hbs, List.append_nil]
  rfl

theorem map_scope_write {i : Nat} {is : List Nat} (hi : i ∉ is) (h : History)
    (bs : List (Symbol × Value)) : is.map (h.write i bs).scope = is.map h.scope :=
  List.map_congr_left fun _ hj => scope_write_of_ne (ne_of_mem_of_not_mem hj hi) h bs

/-- No scope is open twice, and only scopes that were opened are open or have been written to. -/
structure Valid (h : History) : Prop where
  nodup : h.stack.Nodup
  open_le : ∀ i ∈ h.stack, i ≤ h.opened
  written_le : ∀ w ∈ h.writes, w.scope ≤ h.opened

theorem valid_fresh : fresh.Valid where
  nodup := List.nodup_singleton 0
  open_le _ hi := Nat.le_of_eq (List.mem_singleton.mp hi)
  written_le _ hw := nomatch hw

theorem top_mem_stack (h : History) : h.top ∈ h.stack := by
  obtain ⟨opened, inner, writes⟩ := h
  cases inner <;> exact List.mem_cons_self

theorem Valid.write (hv : h.Valid) {i : Nat} (hi : i ∈ h.stack) (bs : List (Symbol × Value)) :
    (h.write i bs).Valid where
  nodup := hv.nodup
  open_le := hv.open_le
  written_le w hw := by
    rcases List.mem_append.mp hw with hw | hw
    · exact hv.written_le w hw
    · obtain ⟨b, -, rfl⟩ := List.mem_map.mp hw
      exact hv.open_le i hi

theorem Valid.push (hv : h.Valid) : h.push.Valid where
  nodup := List.nodup_cons.mpr
    ⟨fun hmem => Nat.not_succ_le_self _ (hv.open_le _ hmem), hv.nodup⟩
  open_le := List.forall_mem_cons.mpr
    ⟨Nat.le_refl _, fun i hi => Nat.le_succ_of_le (hv.open_le i hi)⟩
  written_le w hw := Nat.le_succ_of_le (hv.written_le w hw)

theorem Valid.pop (hv : h.Valid) : h.pop.Valid where
  nodup := hv.nodup.sublist ((List.tail_sublist h.inner).append_right [0])
  open_le i hi := hv.open_le i (((List.tail_sublist h.inner).append_right [0]).subset hi)
  written_le := hv.written_le

theorem Valid.zero_notMem_inner (hv : h.Valid) : 0 ∉ h.inner := by
  intro h0
  exact List.disjoint_of_nodup_append hv.nodup h0 (List.mem_singleton_self 0)

theorem environment_write_global (hv : h.Valid) (bs : List (Symbol × Value)) :
    (h.write 0 bs).environment = h.environment.update bs := by
  have hinner : h.inner.map (h.write 0 bs).scope = h.inner.map h.scope :=
    map_scope_write hv.zero_notMem_inner h bs
  rw [environment, scope_write_self]
  exact congrArg (Environment.mk · _) hinner

theorem environment_write_top (hv : h.Valid) (s : Symbol) (v : Value) :
    (h.write h.top [(s, v)]).environment = h.environment.assign s v := by
  obtain ⟨opened, inner, writes⟩ := h
  cases inner with
  | nil => exact environment_write_global hv [(s, v)]
  | cons i rest =>
    -- the write is to the topmost scope alone, since no other one has its number
    obtain ⟨hrest, h0⟩ : i ∉ rest ∧ 0 ≠ i := by
      have hi : i ∉ rest ++ [0] := (List.nodup_cons.mp hv.nodup).1
      rw [List.mem_append, not_or, List.mem_singleton] at hi
      exact ⟨hi.1, Ne.symm hi.2⟩
    have hmap := map_scope_write hrest ⟨opened, i :: rest, writes⟩ [(s, v)]
    have hself := scope_write_self ⟨opened, i :: rest, writes⟩ i [(s, v)]
    have hglobal := scope_write_of_ne h0 ⟨opened, i :: rest, writes⟩ [(s, v)]
    exact congrArg₂ Environment.mk (congrArg₂ List.cons hself hmap) hglobal

theorem environment_writeAll_top (hv : h.Valid) (bs : List (Symbol × Value)) :
    (h.write h.top bs).environment
      = bs.foldl (fun env b => env.assign b.1 b.2) h.environment := by
  induction bs generalizing h with
  | nil => exact congrArg environment (by rw [write, List.map_nil, List.append_nil])
  | cons b bs ih =>
    have hcons : h.write h.top (b :: bs) = (h.write h.top [b]).write h.top bs := by
      simp only [write, List.map_cons, List.map_nil, List.append_assoc, List.singleton_append]
    rw [hcons, List.foldl_cons, ← environment_write_top hv]
    exact ih (hv.write h.top_mem_stack [b])

theorem environment_push (hv : h.Valid) : h.push.environment = h.environment.push := by
  -- a scope that was never open has not been written to
  have hunused : h.bindings (h.opened + 1) = [] := by
    rw [bindings, List.map_eq_nil_iff, List.filter_eq_nil_iff]
    intro w hw hopened
    exact Nat.not_succ_le_self _ (of_decide_eq_true hopened ▸ hv.written_le w hw)
  have hscope : h.scope (h.opened + 1) = Scope.empty := by
    rw [scope, hunused]
    rfl
  exact congrArg (fun scope => Environment.mk (scope :: h.inner.map h.scope) (h.scope 0)) hscope

theorem environment_enter (hv : h.Valid) (bs : List (Symbol × Value)) :
    (h.push.write h.push.top bs).environment = h.environment.enter bs := by
  rw [environment_writeAll_top hv.push, environment_push hv]
  rfl

theorem environment_pop (h : History) : h.pop.environment = h.environment.leave :=
  congrArg (Environment.mk · _) List.map_tail

/-- The environment has the scopes of the history. -/
structure Explains (h : History) (env : Environment) : Prop where
  valid : h.Valid
  environment_eq : h.environment = env

section

variable {env : Environment} (hm : h.Explains env)
include hm

theorem Explains.write_global (bs : List (Symbol × Value)) :
    (h.write 0 bs).Explains (env.update bs) where
  valid := hm.valid.write (List.mem_append_right h.inner (List.mem_singleton_self 0)) bs
  environment_eq := hm.environment_eq ▸ environment_write_global hm.valid bs

theorem Explains.write_top (s : Symbol) (v : Value) :
    (h.write h.top [(s, v)]).Explains (env.assign s v) where
  valid := hm.valid.write h.top_mem_stack [(s, v)]
  environment_eq := hm.environment_eq ▸ environment_write_top hm.valid s v

theorem Explains.push : h.push.Explains env.push where
  valid := hm.valid.push
  environment_eq := hm.environment_eq ▸ environment_push hm.valid

theorem Explains.enter (bs : List (Symbol × Value)) :
    (h.push.write h.push.top bs).Explains (env.enter bs) where
  valid := hm.valid.push.write h.push.top_mem_stack bs
  environment_eq := hm.environment_eq ▸ environment_enter hm.valid bs

theorem Explains.pop : h.pop.Explains env.leave where
  valid := hm.valid.pop
  environment_eq := hm.environment_eq ▸ environment_pop h

end

theorem explains_fresh : fresh.Explains Environment.empty := ⟨valid_fresh, rfl⟩

mutual

theorem Explains.record {h : History} {m : Machine} (hm : h.Explains m.env) :
    ∀ a : Action, (h.record a).Explains (a.perform m).2.env
  | .define s v => hm.write_global [(s, v)]
  | .assign s v => hm.write_top s v
  | .update bindings => hm.write_global bindings
  | .push => hm.push
  | .pop => by
    rw [Action.env_perform_pop]
    exact hm.pop
  | .scope bindings inside ending => by
    rw [Action.env_perform_scope]
    -- inside, the history goes on from the entry of the block; leaving it closes what is topmost
    -- by then, which need not be the scope of the block
    let block : Machine := { m with env := m.env.enter bindings }
    have henter : (h.push.write h.push.top bindings).Explains block.env := hm.enter bindings
    exact (henter.recordAll inside).pop

theorem Explains.recordAll {h : History} {m : Machine} (hm : h.Explains m.env) :
    ∀ as : List Action, (h.recordAll as).Explains (Action.performAll as m).env
  | [] => hm
  | a :: as => Explains.recordAll (hm.record a) as

end

end History

namespace Action

mutual

/-- The number of scopes that are open above the one of a block after an action inside it, from
what it was before; nothing if the action closes the scope of the block. -/
def level? (n : Nat) : Action → Option Nat
  | .define _ _ => some n
  | .assign _ _ => some n
  | .update _ => some n
  | .push => some (n + 1)
  | .pop => n.ppred
  | .scope _ inside _ => (levelAll? (n + 1) inside).bind Nat.ppred

def levelAll? (n : Nat) : List Action → Option Nat
  | [] => some n
  | a :: as => (a.level? n).bind fun n => levelAll? n as

end

mutual

/-- What is written to the global scope by its name. -/
def definitions : Action → List (Symbol × Value)
  | .define s v => [(s, v)]
  | .assign _ _ => []
  | .update bindings => bindings
  | .push => []
  | .pop => []
  | .scope _ inside _ => definitionsAll inside

def definitionsAll : List Action → List (Symbol × Value)
  | [] => []
  | a :: as => a.definitions ++ definitionsAll as

end

end Action

/-- The second machine is the first one in a block in which `n` scopes have been opened and some
definitions have been made. -/
def Machine.Above (m : Machine) (n : Nat) (definitions : List (Symbol × Value)) (m' : Machine) :
    Prop :=
  ∃ above : List Scope, above.length = n + 1 ∧
    m' = { m with env := ⟨above ++ m.env.inner, m.env.global.putAll definitions⟩ }

namespace Machine.Above

variable {m m' : Machine} {n : Nat} {ds : List (Symbol × Value)}

theorem block (m : Machine) (bindings : List (Symbol × Value)) :
    m.Above 0 [] { m with env := m.env.enter bindings } :=
  ⟨[Scope.empty.putAll bindings], rfl, by rw [Environment.enter_eq]; rfl⟩

variable (h : m.Above n ds m')
include h

theorem update (bindings : List (Symbol × Value)) :
    m.Above n (ds ++ bindings) { m' with env := m'.env.update bindings } := by
  obtain ⟨above, hlength, rfl⟩ := h
  refine ⟨above, hlength, ?_⟩
  simp only [Environment.update, Scope.putAll, List.foldl_append]

theorem assign (s : Symbol) (v : Value) :
    m.Above n ds { m' with env := m'.env.assign s v } := by
  obtain ⟨above, hlength, rfl⟩ := h
  obtain ⟨scope, rest, rfl⟩ := List.exists_cons_of_length_eq_add_one hlength
  exact ⟨scope.put s v :: rest, hlength, rfl⟩

theorem enter (bindings : List (Symbol × Value)) :
    m.Above (n + 1) ds { m' with env := m'.env.enter bindings } := by
  obtain ⟨above, hlength, rfl⟩ := h
  refine ⟨Scope.empty.putAll bindings :: above, congrArg Nat.succ hlength, ?_⟩
  rw [Environment.enter_eq]
  rfl

theorem pop {k : Nat} (hk : n.ppred = some k) :
    ∃ env, m'.env.pop = .ok env ∧ m.Above k ds { m' with env := env } := by
  obtain ⟨above, hlength, rfl⟩ := h
  obtain rfl := Nat.ppred_eq_some.mp hk
  obtain ⟨scope, rest, rfl⟩ := List.exists_cons_of_length_eq_add_one hlength
  exact ⟨_, rfl, rest, Nat.succ.inj hlength, rfl⟩

end Machine.Above

theorem Machine.Above.pop_block {m m' : Machine} {ds : List (Symbol × Value)}
    (h : m.Above 0 ds m') : m'.env.pop = .ok (m.env.update ds) ∧
      { m' with env := m.env.update ds } = { m with env := m.env.update ds } := by
  obtain ⟨above, hlength, rfl⟩ := h
  obtain ⟨scope, rfl⟩ := List.length_eq_one_iff.mp hlength
  exact ⟨rfl, rfl⟩

namespace Action

theorem perform_scope {bindings : List (Symbol × Value)} {inside : List Action} {m : Machine}
    {env : Environment} (ending : Outcome Unit)
    (h : (performAll inside { m with env := m.env.enter bindings }).env.pop = .ok env) :
    (scope bindings inside ending).perform m
      = (ending, { performAll inside { m with env := m.env.enter bindings } with env := env }) := by
  simp only [perform, Eval.inScope, Bool.or_true, ite_true, h]

mutual

theorem above_perform {m m' : Machine} {n k : Nat} {ds : List (Symbol × Value)}
    (h : m.Above n ds m') :
    ∀ a : Action, a.level? n = some k → m.Above k (ds ++ a.definitions) (a.perform m').2
  | .define s v, rfl => h.update [(s, v)]
  | .assign s v, rfl => by
    rw [definitions, List.append_nil]
    exact h.assign s v
  | .update bindings, rfl => h.update bindings
  | .push, rfl => by
    rw [definitions, List.append_nil]
    exact h.enter []
  | .pop, hk => by
    obtain ⟨env, henv, hpop⟩ := h.pop hk
    rw [definitions, List.append_nil]
    simp only [perform, henv]
    exact hpop
  | .scope bindings inside ending, hk => by
    obtain ⟨l, hl, hk⟩ := Option.bind_eq_some_iff.mp hk
    obtain ⟨env, henv, hpop⟩ := (above_performAll (h.enter bindings) inside hl).pop hk
    rw [perform_scope ending henv]
    exact hpop

theorem above_performAll {m m' : Machine} {n k : Nat} {ds : List (Symbol × Value)}
    (h : m.Above n ds m') : ∀ as : List Action, levelAll? n as = some k →
      m.Above k (ds ++ definitionsAll as) (performAll as m')
  | [], rfl => by
    rw [definitionsAll, List.append_nil]
    exact h
  | a :: as, hk => by
    obtain ⟨l, hl, hk⟩ := Option.bind_eq_some_iff.mp hk
    rw [definitionsAll, ← List.append_assoc]
    exact above_performAll (above_perform h a hl) as hk

end

theorem perform_scope_balanced {inside : List Action} (h : levelAll? 0 inside = some 0)
    (bindings : List (Symbol × Value)) (ending : Outcome Unit) (m : Machine) :
    (scope bindings inside ending).perform m
      = (ending, { m with env := m.env.update (definitionsAll inside) }) := by
  have habove := above_performAll (Machine.Above.block m bindings) inside h
  rw [List.nil_append] at habove
  obtain ⟨hpop, hm⟩ := habove.pop_block
  rw [perform_scope ending hpop, hm]

theorem perform_pop_global {m : Machine} (h : m.env.depth = 0) :
    pop.perform m = (.error (EvalError.of (.internal .popGlobal)), m) := by
  obtain ⟨⟨inner, global⟩, callDepth, log⟩ := m
  obtain rfl : inner = [] := List.length_eq_zero_iff.mp h
  rfl

end Action

/-- After any actions a symbol has the value that was written last for it in the innermost open
scope with a write for it. A block is a push, assignments, what is inside and a pop, so this holds
inside blocks as well. The only scope cannot be closed. A block that closes the scopes it opens
leaves those below it as they were but for global definitions, however it ends. -/
theorem environment_holds_surviving_writes :
    (∀ (actions : List Action) (callDepth : Nat) (log : List Event) (s : Symbol),
      let h := History.fresh.recordAll actions
      let m := Action.performAll actions ⟨Environment.empty, callDepth, log⟩
      m.env.resolve? s = h.resolve? s ∧
      (m.env.resolve? s = none ↔ ∀ w ∈ h.writes, w.binding.1 = s → w.scope ∉ h.stack)) ∧
    (∀ (bindings : List (Symbol × Value)) (inside : List Action) (ending : Outcome Unit)
      (m : Machine), (Action.scope bindings inside ending).perform m
        = match Action.pop.perform
            (Action.performAll (Action.opening bindings ++ inside) m) with
          | (.value _, m') => (ending, m')
          | failure => failure) ∧
    (∀ m : Machine, m.env.depth = 0 →
      Action.pop.perform m = (.error (EvalError.of (.internal .popGlobal)), m)) ∧
    ∀ (bindings : List (Symbol × Value)) (inside : List Action) (ending : Outcome Unit)
      (m : Machine), Action.levelAll? 0 inside = some 0 →
        (Action.scope bindings inside ending).perform m
          = (ending, { m with env := m.env.update (Action.definitionsAll inside) }) := by
  refine ⟨fun actions callDepth log s => ?_, Action.perform_scope_eq,
    fun m hm => Action.perform_pop_global hm, fun bindings inside ending m hinside =>
      Action.perform_scope_balanced hinside bindings ending m⟩
  intro h m
  have hm : h.Explains m.env := History.Explains.recordAll History.explains_fresh actions
  have hresolve : m.env.resolve? s = h.resolve? s := by
    rw [← hm.environment_eq, History.resolve?_environment]
  refine ⟨hresolve, ?_⟩
  rw [hresolve]
  exact History.resolve?_eq_none_iff h s

theorem environment_holds_surviving_writes_shadowed :
    let x : Symbol := ⟨8⟩
    let e := EvalError.of (.internal .popGlobal)
    let inside := [.push, .assign x (.string "inner"), .define x (.string "late"), .pop]
    let block := Action.scope [(x, .string "first"), (x, .string "second")] inside (.error e)
    let actions := [.define x (.string "early"), .push, .assign x (.string "outer"), block]
    let m : Machine := ⟨Environment.empty, 0, []⟩
    (Action.performAll actions m).env.resolve? x = some (.string "outer") ∧
    (Action.performAll (actions ++ [.pop]) m).env.resolve? x = some (.string "late") ∧
    (Action.performAll actions m).env.resolve? ⟨9⟩ = none ∧
    (m.env.depth = 0 ∧ Action.pop.perform m = (.error e, m)) ∧
    (Action.levelAll? 0 inside = some 0 ∧ block.perform m
      = (.error e, { m with env := m.env.update [(x, .string "late")] })) := by
  intro x e inside block actions m
  obtain ⟨hresolve, _, hpop, hblock⟩ := environment_holds_surviving_writes
  have hother : ∀ w ∈ (History.fresh.recordAll actions).writes, w.binding.1 ≠ ⟨9⟩ := by decide
  exact ⟨(hresolve actions 0 [] x).1.trans rfl, (hresolve (actions ++ [.pop]) 0 [] x).1.trans rfl,
    (hresolve actions 0 [] ⟨9⟩).2.mpr fun w hw h9 => (hother w hw h9).elim, ⟨rfl, hpop m rfl⟩, rfl,
    hblock _ inside _ m rfl⟩

end MiniLisp
