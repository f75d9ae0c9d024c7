/-
Functions that templates and configurations call.

Design notes: a function takes values and either returns one or fails; it keeps
nothing between two calls.  The ways to fail are told apart by what the caller makes
of them: a refusal may name the argument at fault, an evaluation error is reported
like any other, an explanation is passed on as it is, and a breakdown is a fault.
-/
import Interpolation.Config.Diagnostic

namespace Interpolation

/-- How a call fails. -/
inductive CallFailure where
  /-- The function refuses its arguments, perhaps because of one of them. -/
  | refused (message : String) (argument : Option Int)
  /-- The function reports an evaluation error. -/
  | failed (message : String)
  /-- The function explains its failure by diagnostics of its own.  Nothing is asked
  of them: there may be none, and they may be about any place. -/
  | explained (diagnostics : Config.Diagnostics)
  /-- The function breaks down. -/
  | broken (message : String)
  deriving DecidableEq, Repr

/-- The body of a function. -/
abbrev Callback := List Value → Except CallFailure Value

/-- The numbers of arguments a function takes. -/
structure Arity where
  least : Nat
  /-- The greatest number, if there is one. -/
  most : Option Nat

/-- Whether a number of arguments is accepted. -/
def Arity.accepts (a : Arity) (n : Nat) : Bool :=
  decide (a.least ≤ n) && (match a.most with
    | some most => decide (n ≤ most)
    | none => true)

/-- A function of a configuration. -/
structure Function where
  /-- The name under which the function was defined; messages use the name by
  which it is called. -/
  name : String
  /-- The accepted numbers of arguments, unless the function declares none. -/
  arity : Option Arity
  call : Callback

/-- Whether a function may be called with a number of arguments.  One that
declares nothing is left to decide for itself. -/
def Function.accepts (f : Function) (n : Nat) : Bool :=
  match f.arity with
  | some arity => arity.accepts n
  | none => true

end Interpolation
