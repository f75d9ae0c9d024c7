/-
The node of a phrase.

* `ofPhrase_group` — parentheses leave no trace but in the positions of the nodes
  around them.

Design notes: a node starts where its phrase does, so a node whose first operand
is in parentheses starts at the parenthesis while the operand itself starts
inside.  What a string literal means is supplied from outside, because its body
is a template again.
-/
import Interpolation.Number.Reading
import Interpolation.Template.Literal
import Interpolation.Template.Phrase

namespace Interpolation.Template.Node

variable {Owner : Type}

/-- The literal of a number as it is written. -/
def ofNumber (pos : Pos) (digits : List Char) : Except ParseFailure (Node Owner) :=
  match Number.ofUnsigned? false digits with
  | some (.int i) => .ok (.literal pos (.int i))
  | some (.float x) => .ok (.literal pos (.float x))
  | none => .error (.malformed ⟨.invalidNumber, pos⟩)

mutual

/-- The node of a phrase, given the position of each offset and the node of each
string literal. -/
def ofPhrase (locate : Nat → Pos)
    (string : Nat → List Char → Except ParseFailure (Node Owner)) :
    Phrase → Except ParseFailure (Node Owner)
  | .number offset digits => ofNumber (locate offset) digits
  | .bool offset b => .ok (.literal (locate offset) (.bool b))
  | .quoted offset body => string (offset + 1) body
  | .name offset text => .ok (.access none (locate offset) (String.ofList text))
  | .call offset function arguments => do
    let nodes ← ofArguments locate string arguments
    return .call none (locate offset) (String.ofList function) nodes
  | .group _ inner => ofPhrase locate string inner
  | .index target key => do
    let t ← ofPhrase locate string target
    let k ← ofPhrase locate string key
    return .index (locate target.start) t k
  | .unary offset op operand => do
    let n ← ofPhrase locate string operand
    return .unary (locate offset) op n
  | .binary op left right => do
    let l ← ofPhrase locate string left
    let r ← ofPhrase locate string right
    return .binary (locate left.start) op l r
  | .conditional condition yes no => do
    let c ← ofPhrase locate string condition
    let y ← ofPhrase locate string yes
    let n ← ofPhrase locate string no
    return .conditional (locate condition.start) c y n

/-- The nodes of the arguments of a call. -/
def ofArguments (locate : Nat → Pos)
    (string : Nat → List Char → Except ParseFailure (Node Owner)) :
    List Phrase → Except ParseFailure (List (Node Owner))
  | [] => .ok []
  | argument :: rest => do
    let n ← ofPhrase locate string argument
    let nodes ← ofArguments locate string rest
    return n :: nodes

end

theorem ofPhrase_group (locate : Nat → Pos)
    (string : Nat → List Char → Except ParseFailure (Node Owner)) (offset : Nat)
    (inner : Phrase) :
    ofPhrase locate string (.group offset inner) = ofPhrase locate string inner := by
  rw [ofPhrase]

end Interpolation.Template.Node
