/-
Static kinds: what a tree will evaluate to, as far as its text and its scope
tell.

* `kindOf_output_single` — a template with a single part has the kind of that
  part.

Design notes: kinds are found without evaluating anything.  A conditional has
the kind of its first branch and an arithmetic operator that of its first
operand; elements of collections and names with an owner can be anything.
-/
import Interpolation.Evaluation.Scope
import Interpolation.Expression.Origin
import Interpolation.Template.Node

namespace Interpolation.Evaluation

open Expression (Origin)
open Template (Node)

/-- The static kind of a tree in a scope. -/
def kindOf (scope : Scope) : Node Origin → Except Failure Kind
  | .bare .. => .error (.fault .abstractType)
  | .output _ [part] => kindOf scope part
  | .output .. => .ok .string
  | .literal _ value => .ok value.kind
  | .access none _ name => (scope.findVariable name).map Variable.kind
  | .call none _ name _ => (scope.findFunction name).map ScopeFunction.returns
  | .access (some _) .. | .call (some _) .. => .ok .unknown
  | .unary _ .not _ => .ok .bool
  | .unary _ .negate operand => kindOf scope operand
  | .binary _ op left _ => if op.isLogical then .ok .bool else kindOf scope left
  | .conditional _ _ yes _ => kindOf scope yes
  | .index .. => .ok .any

theorem kindOf_output_single (scope : Scope) (p : Template.Pos) (part : Node Origin) :
    kindOf scope (.output p [part]) = kindOf scope part := by
  rw [kindOf]

end Interpolation.Evaluation
