/-
What variable accesses and calls evaluate to.

Design notes: a name without an owner comes from the scope.  A name with one is
looked up in the context that the scope carries, by the rules of its owner, and
values are converted on the way in and out.  Warnings of look-ups are kept, in
the order of the look-ups, as the state of the evaluation.
-/
import Interpolation.Evaluation.Scope
import Interpolation.Expression.Origin
import Interpolation.Value.Knowledge

namespace Interpolation.Evaluation

open Config (Diagnostics Range)
open Expression (Origin)

/-- An evaluation: it may fail, and it gathers warnings. -/
abbrev Eval := StateT Diagnostics (Except Failure)

namespace Eval

/-- An evaluation without warnings. -/
def ofExcept {α : Type} (r : Except Failure α) : Eval α := fun warnings =>
  match r with
  | .ok a => .ok (a, warnings)
  | .error e => .error e

/-- Ends an evaluation without a value. -/
def fail {α : Type} (e : Failure) : Eval α := fun _ => .error e

/-- Keeps warnings. -/
def warn (ds : Diagnostics) : Eval Unit := fun warnings => .ok ((), warnings ++ ds)

end Eval

/-- The failure that consists of a single report. -/
def failedCall (summary detail : String) (subject : Range) : Failure :=
  .diagnosed [.error summary detail (some subject)]

/-- The value of a variable access without an owner. -/
def lookupFree (scope : Scope) (name : String) : Except Failure Value := do
  return (← scope.findVariable name).value

/-- The value of a call without an owner, once its arguments have values. -/
def callFree (name : String) (f : ScopeFunction) (arguments : List Value) :
    Except Failure Value :=
  if !f.accepts arguments.length then
    .error (.error (.argumentCount name f.parameters arguments.length))
  else if arguments.any Value.isUnknown then .ok .unknown
  else
    match f.call arguments with
    | .ok v => .ok v
    | .error (.refused message _) => .error (.fault (.refused message))
    | .error (.failed message) => .error (.error (.reported message))
    | .error (.explained diagnostics) => .error (.error (.explained diagnostics))
    | .error (.broken message) => .error (.fault (.broken message))

/-- The context that names with an owner are looked up in. -/
def contextOf (scope : Scope) : Except Failure (Option Config.Context) :=
  match scope.context with
  | some context => .ok context
  | none => .error (.error .noContext)

/-- The value of a variable access with an owner. -/
def lookupOwned (scope : Scope) (o : Origin) (p : Template.Pos) (name : String) :
    Eval Value := do
  let context ← Eval.ofExcept (contextOf scope)
  match (o.lookup p name).value context with
  | .error e => Eval.fail e.toFailure
  | .ok found =>
    if Config.hasErrors found.diagnostics then Eval.fail (.diagnosed found.diagnostics)
    else
      Eval.warn found.diagnostics
      return found.value.toTemplate

/-- The report of a call whose function refused its arguments.  `places` are the
positions of the arguments. -/
def refusal (o : Origin) (p : Template.Pos) (name : String) (places : List Template.Pos)
    (message : String) (argument : Option Int) : Failure :=
  let place := argument.bind fun i => if 0 ≤ i then (places[i.toNat]?).map (i, ·) else none
  match place with
  | some (i, place) =>
    failedCall "Invalid function argument"
      ("Invalid value for argument " ++ Digits.text (i + 1) ++ " of function " ++
        Quoted.quote name ++ ": " ++ message ++ ".")
      (o.rangeAt place)
  | none =>
    failedCall "Error in function call"
      ("Call to function " ++ Quoted.quote name ++ " failed: " ++ message ++ ".") (o.rangeAt p)

/-- The value of a call with an owner, once its arguments have values. -/
def callOwned (scope : Scope) (o : Origin) (p : Template.Pos) (name : String)
    (places : List Template.Pos) (arguments : List Value) : Except Failure Value := do
  match ← contextOf scope with
  | none =>
    throw (failedCall "Function calls not allowed" "Functions may not be called here."
      (o.rangeAt p))
  | some context =>
    match context.lookupFunction name with
    | none =>
      throw (failedCall "Call to unknown function"
        ("There is no function named " ++ Quoted.quote name ++ ".") (o.rangeAt p))
    | some f =>
      let given := arguments.map Value.toConfig
      if !f.accepts given.length then
        throw (failedCall "Wrong number of arguments"
          ("Function " ++ Quoted.quote name ++ " does not accept " ++
            Digits.text arguments.length ++ " arguments.") (o.rangeAt p))
      else if !given.all Value.isKnown then return .unknown
      else
        match f.call given with
        | .ok v => return v.toTemplate
        | .error (.refused message argument) =>
          throw (refusal o p name places message argument)
        | .error (.failed message) => throw (.error (.reported message))
        | .error (.explained diagnostics) => throw (.error (.explained diagnostics))
        | .error (.broken message) => throw (.fault (.broken message))

end Interpolation.Evaluation
