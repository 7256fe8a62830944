import MiniLisp.Evaluation.Binding
import MiniLisp.Number

/-!
# What native functions compute

A native function receives its bound arguments; a rest parameter arrives as one list at the end.
Errors are placed at the operand of the call that caused them.
-/

namespace MiniLisp.Native

def sum (xs : List Float) : Float := xs.foldl (fun acc x => acc + x) 0.0

def product (xs : List Float) : Float := xs.foldl (fun acc x => acc * x) 1.0

def listAt (k : Int) (v : Value) : Except EvalError (List Value) :=
  v.asList.mapError (EvalError.within k)

def numberAt (k : Int) (v : Value) : Except EvalError Float :=
  v.asNumber.mapError (EvalError.within k)

/-- Two numbers or two symbols are compared; nothing else is. -/
def compare : Value → Value → Except EvalError Value
  | .number x, v => (numberAt 2 v).map fun y => .bool (x == y)
  | .symbol s, v => (v.asSymbol.mapError (EvalError.within 2)).map fun t => .bool (decide (s = t))
  | _, _ => .error ((EvalError.of (.typeFault .incomparable)).within 1)

def firstOf : List Value → Except EvalError Value
  | [] => .error ((EvalError.of (.typeFault .firstOfEmpty)).within 1)
  | v :: _ => .ok v

def run : Native → List Value → Except EvalError Value
  | .add, [.list vs] => (collect Value.asNumber 1 vs).map fun xs => .number (sum xs)
  | .multiply, [.list vs] => (collect Value.asNumber 1 vs).map fun xs => .number (product xs)
  | .subtract, [v, .list vs] => do
    let x ← numberAt 1 v
    let xs ← collect Value.asNumber 2 vs
    pure (.number (x - sum xs))
  | .equal, [v, w] => compare v w
  | .first, [v] => (listAt 1 v).bind firstOf
  | .rest, [v] => (listAt 1 v).map fun vs => .list vs.tail
  | .list, [.list vs] => .ok (.list vs)
  | .concat, [.list vs] => (collect Value.asList 1 vs).map fun vss => .list vss.flatten
  | .isList, [.list _] => .ok (.bool true)
  | .isList, [_] => .ok (.bool false)
  | .length, [v] => (listAt 1 v).map fun vs => .number (Number.ofNat vs.length)
  | n, _ => .error (EvalError.of (.internal (.operandShape n)))

end MiniLisp.Native

namespace MiniLisp

def applyNative (n : Native) (operands : List Value) : Plan Value := do
  let bindings ← bindOperands n.params operands true n.describe
  Plan.ofExcept (n.run (bindings.map Prod.snd))

end MiniLisp
