/-
Problems with a template, described as diagnostics.

Design notes: an error in the text of a template is reported where it was found.
Evaluation keeps no track of places, so its errors are reported without one; the
diagnostics of a failed look-up or call are passed on unchanged.  So are those by
which a function explains its failure, and it is up to the function whether there is
an error among them and what they are about.
-/
import Interpolation.Evaluation.Failure
import Interpolation.Expression.Placement
import Interpolation.Template.SyntaxError

namespace Interpolation.Expression

open Config (Diagnostics)

/-- Something that went wrong with a template. -/
inductive Problem where
  /-- The text of the template is wrong at a position. -/
  | badText (message : String) (pos : Template.Pos)
  /-- The evaluation of the template failed. -/
  | failed (message : String)
  /-- A look-up or a call failed, and these diagnostics say why. -/
  | diagnosed (diagnostics : Diagnostics)

namespace Problem

/-- The problem of an error in the text of a template. -/
def ofSyntaxError (e : Template.SyntaxError) : Problem :=
  .badText e.cause.message e.pos

/-- The problem behind a failed evaluation; a fault is none. -/
def ofFailure : Failure → Except Fault Problem
  | .error (.explained diagnostics) => .ok (.diagnosed diagnostics)
  | .error e => .ok (.failed e.message)
  | .diagnosed diagnostics => .ok (.diagnosed diagnostics)
  | .fault f => .error f

/-- A problem in plain words. -/
def text : Problem → String
  | .badText message pos => Template.SyntaxError.describe message pos
  | .failed message => message
  | .diagnosed diagnostics => Config.textOf diagnostics

/-- A problem as diagnostics for the source the template is in. -/
def diagnostics (source : Bytes) (start : Config.Pos) : Problem → Diagnostics
  | .badText message pos =>
    [.error "Error during parsing" ("Invalid syntax: " ++ message ++ ".")
      (some (rangeOf pos source start))]
  | .failed message => [.error "Invalid interpolation" ("Failed: " ++ message ++ ".") none]
  | .diagnosed diagnostics => diagnostics

end Problem

end Interpolation.Expression
