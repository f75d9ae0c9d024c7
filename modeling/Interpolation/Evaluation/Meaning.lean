/-
The meaning of a template, by recursion on its tree.

* `evalAll_nil`, `evalAll_cons` — parts and arguments are evaluated from left to
  right.

Design notes: this is the plain reading of a tree.  A call of a scope's function
looks the function up before its arguments are evaluated; a call with an owner
evaluates the arguments first.
-/
import Interpolation.Evaluation.Names
import Interpolation.Evaluation.Operation
import Interpolation.Template.Node

namespace Interpolation.Evaluation

open Expression (Origin)
open Template (Node)

mutual

/-- The value of a tree in a scope. -/
def eval (scope : Scope) : Node Origin → Eval Value
  | .bare .. => Eval.fail (.fault .abstractEvaluation)
  | .output _ parts => do
    let values ← evalAll scope parts
    Eval.ofExcept (joinParts values)
  | .literal _ value => pure value
  | .access none _ name => Eval.ofExcept (lookupFree scope name)
  | .access (some o) p name => lookupOwned scope o p name
  | .call none _ name arguments => do
    let f ← Eval.ofExcept (scope.findFunction name)
    let values ← evalAll scope arguments
    Eval.ofExcept (callFree name f values)
  | .call (some o) p name arguments => do
    let values ← evalAll scope arguments
    Eval.ofExcept (callOwned scope o p name (arguments.map Node.pos) values)
  | .unary _ op operand => do
    let v ← eval scope operand
    Eval.ofExcept (applyUnary op v)
  | .binary _ op left right => do
    let v ← eval scope left
    if isLazy op then
      match ← Eval.ofExcept (firstDecides op v) with
      | some decided => pure decided
      | none => do
        let w ← eval scope right
        Eval.ofExcept (secondDecides w)
    else do
      let w ← eval scope right
      Eval.ofExcept (applyBinary op v w)
  | .conditional _ condition yes no => do
    let v ← eval scope condition
    match ← Eval.ofExcept (chooses v) with
    | none => pure .unknown
    | some true => eval scope yes
    | some false => eval scope no
  | .index _ target key => do
    let v ← eval scope target
    let w ← eval scope key
    Eval.ofExcept (applyIndex v w)

/-- The values of trees from left to right. -/
def evalAll (scope : Scope) : List (Node Origin) → Eval (List Value)
  | [] => pure []
  | n :: rest => do
    let v ← eval scope n
    let values ← evalAll scope rest
    return v :: values

end

@[simp] theorem evalAll_nil (scope : Scope) : evalAll scope [] = pure [] := by
  rw [evalAll]

theorem evalAll_cons (scope : Scope) (n : Node Origin) (rest : List (Node Origin)) :
    evalAll scope (n :: rest) = do
      let v ← eval scope n
      let values ← evalAll scope rest
      return v :: values := by
  rw [evalAll]

end Interpolation.Evaluation
