import MiniLisp.Interpreter

/-!
# Sessions

A session is a sequence of steps on one interpreter. Each step has a reply; whatever goes wrong in
a step, the next one starts from the interpreter that it leaves behind.
-/

namespace MiniLisp

inductive Step where
  | eval (source : String)
  | read (chunk : String)
  /-- Read a chunk and evaluate each form that it completed. -/
  | feed (chunk : String)
  | resolve (name : String)
  | reset
  | finish
  deriving DecidableEq, Repr

inductive Reply where
  | values (vs : List Value)
  | forms (vs : List Value)
  | results (rs : List (Except Failure Value))
  | binding (v : Option Value)
  | done
  | readError (e : ReadError)
  | evalError (e : EvalError)
  | hostError

def Reply.ofSource : Except Failure (List Value) → Reply
  | .ok vs => .values vs
  | .error (.read e) => .readError e
  | .error (.eval e) => .evalError e
  | .error .host => .hostError

namespace Interpreter

def perform (it : Interpreter) : Step → Reply × Interpreter
  | .eval source =>
    let (result, it) := it.evalSource source
    (.ofSource result, it)
  | .read chunk => match it.read chunk with
    | (.ok vs, it) => (.forms vs, it)
    | (.error e, it) => (.readError e, it)
  | .feed chunk => match it.read chunk with
    | (.ok forms, it) =>
      let (rs, it) := it.evalEachForm forms
      (.results rs, it)
    | (.error e, it) => (.readError e, it)
  | .resolve name =>
    let (v, it) := it.resolve name
    (.binding v, it)
  | .reset => (.done, it.reset)
  | .finish => match it.finish with
    | (.ok _, it) => (.done, it)
    | (.error e, it) => (.readError e, it)

theorem sameLimits_perform (it : Interpreter) (step : Step) :
    it.SameLimits (it.perform step).2 := by
  cases step with
  | eval source => exact it.sameLimits_evalSource source
  | read chunk =>
    have hread := it.sameLimits_read chunk
    simp only [perform]
    split <;> rename_i heq <;> rw [heq] at hread <;> exact hread
  | feed chunk =>
    have hread := it.sameLimits_read chunk
    simp only [perform]
    split <;> rename_i heq <;> rw [heq] at hread
    · exact hread.trans (sameLimits_evalEachForm _ _)
    · exact hread
  | resolve name => exact ⟨rfl, rfl⟩
  | reset => exact it.sameLimits_afterReading _ _
  | finish =>
    have hfinish : it.SameLimits it.finish.2 := it.sameLimits_afterReading _ _
    simp only [perform]
    split <;> rename_i heq <;> rw [heq] at hfinish <;> exact hfinish

def performAll (it : Interpreter) : List Step → List Reply × Interpreter
  | [] => ([], it)
  | step :: steps =>
    let (reply, it) := it.perform step
    let (replies, it) := it.performAll steps
    (reply :: replies, it)

end Interpreter

end MiniLisp
