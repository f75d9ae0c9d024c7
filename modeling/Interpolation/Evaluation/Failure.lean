/-
Failures of evaluation.

Design notes: an evaluation error is a cause, worded in one place.  What evaluation
itself reports about a look-up or a call are diagnostics already, and they are about
places in the template.  Functions and interpretations of names may explain a failure
by diagnostics, too; these are kept apart, since they can be about anything.  Both
are passed on as they are.  Faults are kept apart because nothing reports them.  A
message that shows a value may fail itself, when the value holds a whole number with
too many digits.
-/
import Interpolation.Config.Diagnostic
import Interpolation.Fault
import Interpolation.Number
import Interpolation.Value.Display

namespace Interpolation

/-- Why an evaluation fails. -/
inductive EvalError where
  | unknownVariable (name : String)
  | unknownFunction (name : String)
  | argumentCount (function : String) (expected given : Nat)
  /-- A part of several that cannot become text; parts count from 1. -/
  | unjoinable (part : Nat) (kind : Kind)
  | numberTooLarge
  | notText (kind : Kind)
  | boolAsNumber
  | unreadableNumber (shown : String)
  | notNumber (kind : Kind)
  | notBool (shown : String)
  | zeroDivisor
  | indexOutOfRange (shown : String) (length : Nat)
  | missingKey (shown : String)
  | notIndexable (kind : Kind)
  /-- A name with an owner was evaluated in a scope without a context. -/
  | noContext
  /-- A function or an interpretation of names reported an error. -/
  | reported (message : String)
  /-- A function or an interpretation of names explained its failure. -/
  | explained (diagnostics : Config.Diagnostics)
  deriving DecidableEq, Repr

/-- The wording of an evaluation error. -/
def EvalError.message : EvalError → String
  | .unknownVariable name => "unknown variable accessed: " ++ name
  | .unknownFunction name => "unknown function called: " ++ name
  | .argumentCount function expected given =>
    function ++ ": expected " ++ Digits.text expected ++ " arguments, got " ++ Digits.text given
  | .unjoinable part kind =>
    "output of an interpolation must be a string, or a single list or map (argument " ++
      Digits.text part ++ " is " ++ kind.name ++ ")"
  | .numberTooLarge => "number is too large to convert to string"
  | .notText kind => "cannot convert " ++ kind.name ++ " to string"
  | .boolAsNumber => "cannot use a bool as a number"
  | .unreadableNumber shown => "cannot parse " ++ shown ++ " as a number"
  | .notNumber kind => "cannot use " ++ kind.name ++ " as a number"
  | .notBool shown => "cannot use " ++ shown ++ " as a bool"
  | .zeroDivisor => "divide by zero"
  | .indexOutOfRange shown length =>
    "index " ++ shown ++ " out of range for list of length " ++ Digits.text length
  | .missingKey shown => "key " ++ shown ++ " does not exist in map"
  | .notIndexable kind => "cannot index a value of type " ++ kind.name
  | .noContext => "no evaluation context is available in this scope"
  | .reported message => message
  | .explained diagnostics => Config.textOf diagnostics

/-- How an evaluation ends without a value. -/
inductive Failure where
  | error (e : EvalError)
  /-- A look-up or a call failed, and what is reported about it says why. -/
  | diagnosed (diagnostics : Config.Diagnostics)
  | fault (f : Fault)

namespace Failure

/-- An error whose message shows a value. -/
def showing (v : Value) (error : String → EvalError) : Failure :=
  match v.display with
  | some shown => .error (error shown)
  | none => .fault .tooManyDigits

/-- The failure of an arithmetic operation. -/
def ofNumber : Number.Failure → Failure
  | .zeroDivisor => .error .zeroDivisor
  | .overflow => .fault .overflow
  | .domain => .fault .domain

end Failure

end Interpolation
