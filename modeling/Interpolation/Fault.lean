/-
Faults: failures that no diagnostic describes.

A fault leaves an evaluation altogether, where an ordinary evaluation error is
turned into a diagnostic.

Design notes: faults are causes, and `Fault.message` is the one place that words
them.
-/
import Interpolation.Number.Digits

namespace Interpolation

/-- A failure that no diagnostic describes. -/
inductive Fault where
  /-- A message would show a whole number with too many digits. -/
  | tooManyDigits
  /-- A key made of this many digits is too long to be read as a number. -/
  | tooManyDigitsToRead (count : Nat)
  /-- A whole number is too large for arithmetic with floating-point numbers. -/
  | overflow
  /-- An infinite number has no remainder. -/
  | domain
  /-- A node without a meaning of its own was evaluated. -/
  | abstractEvaluation
  /-- A node without a meaning of its own was asked for its type. -/
  | abstractType
  /-- A function called by a template refused its arguments. -/
  | refused (message : String)
  /-- A function or an interpretation of names broke down. -/
  | broken (message : String)
  /-- A relative traversal was applied to a context. -/
  | relativeTraversal
  /-- A root step stands behind another step. -/
  | misplacedRoot
  deriving DecidableEq, Repr

namespace Fault

/-- The wording of the digit limit. -/
def digitLimitMessage (explanation : String) : String :=
  "Exceeds the limit (" ++ Digits.text Digits.digitLimit ++
    " digits) for integer string conversion" ++ explanation ++
    "; use sys.set_int_max_str_digits() to increase the limit"

/-- The wording of a fault. -/
def message : Fault → String
  | .tooManyDigits => digitLimitMessage ""
  | .tooManyDigitsToRead count =>
    digitLimitMessage (": value has " ++ Digits.text count ++ " digits")
  | .overflow => "int too large to convert to float"
  | .domain => "math domain error"
  | .abstractEvaluation => "Node.evaluate() not implemented"
  | .abstractType => "Node.type() not implemented"
  | .refused message => message
  | .broken message => message
  | .relativeTraversal => "traverse_abs requires an absolute traversal"
  | .misplacedRoot => "'TraverseRoot' object has no attribute 'traverse'"

end Fault

end Interpolation
