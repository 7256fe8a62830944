import MiniLisp.Evaluation.Binding

/-!
# Templates

A template is copied; a part headed by an unquote mark at the level of the template is replaced by
its value, and a spliced part by the elements of its value. A nested template raises the level, an
unquote that does not belong to the template lowers it.
-/

namespace MiniLisp

def spliced : Value → Plan (List Value)
  | .list vs => pure vs
  | _ => Plan.within 1 (Plan.fail (.typeFault .spliceNotList))

/-- What an element of a list contributes to the copy of the list, given how it is copied. -/
def copyItem (level : Nat) (item : Value) (copy : Plan Value) : Plan (List Value) :=
  match item.wrapped? Symbol.unquoteSplice with
  | some v =>
    if level = 1 then do
      let x ← Plan.within 1 (.eval v)
      spliced x
    else do
      let x ← copy
      pure [x]
  | none => do
    let x ← copy
    pure [x]

mutual

/-- Copies a template at the given level, which is one for the template itself. -/
def copyTemplate (level : Nat) : Value → Plan Value
  | .list [.symbol s, v] =>
    if s = Symbol.unquote then
      if level = 1 then Plan.within 1 (.eval v)
      else do
        let x ← Plan.within 1 (copyTemplate (level - 1) v)
        pure (.list [.symbol s, x])
    else if s = Symbol.quasiquote then do
      let x ← Plan.within 1 (copyTemplate (level + 1) v)
      pure (.list [.symbol s, x])
    else if s = Symbol.unquoteSplice ∧ level = 1 then
      Plan.fail (.typeFault .spliceOutsideList)
    else do
      let xs ← Plan.within 1 (copyItem level v (copyTemplate level v))
      pure (.list (.symbol s :: xs))
  | .list items => do
    let xs ← copyItems level 0 items
    pure (.list xs)
  | v => pure v

/-- Copies the elements of a list in a template, where `k` is the position of the first one. -/
def copyItems (level : Nat) (k : Int) : List Value → Plan (List Value)
  | [] => pure []
  | item :: items => do
    let xs ← Plan.within k (copyItem level item (copyTemplate level item))
    let rest ← copyItems level (k + 1) items
    pure (xs ++ rest)

end

end MiniLisp
