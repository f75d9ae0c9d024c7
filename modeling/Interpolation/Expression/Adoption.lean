/-
Adoption: giving the names of a tree an owner.

Design notes: an expression adopts the tree it is made from.  From then on the
names in the tree are looked up in the expression's context by the expression's
own rules.  A tree that has been adopted once does not change hands.
-/
import Interpolation.Template.Node

namespace Interpolation.Template.Node

variable {Owner : Type}

/-- Gives a variable access or a call an owner unless it has one. -/
def giveOwner (owner : Owner) : Node Owner → Node Owner
  | .access none p name => .access (some owner) p name
  | .call none p name arguments => .call (some owner) p name arguments
  | n => n

/-- Gives every name of a tree an owner unless it has one. -/
def adopt (owner : Owner) (n : Node Owner) : Node Owner :=
  n.rebuild (giveOwner owner)

end Interpolation.Template.Node
