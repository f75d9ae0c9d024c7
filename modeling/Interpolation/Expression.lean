/-
Configuration expressions made from interpolation templates.

Design notes: an expression is a template tree together with its origin, which
owns the names in it.  Its value in a context comes with the warnings of its
look-ups, or, when evaluation fails, with the diagnostics of the failure and no
value.  Faults are not turned into diagnostics.
-/
import Interpolation.Evaluation.Machine
import Interpolation.Expression.Adoption
import Interpolation.Expression.Problem
import Interpolation.Template.Node.OfText

namespace Interpolation

open Config (Context Diagnostics Range Result Traversal)
open Expression (Lookup Origin Problem)
open Template (Node)

/-- An expression: a tree and the origin that owns its names. -/
structure Expression where
  root : Node Origin
  origin : Origin

namespace Expression

/-- The expression that adopts a tree. -/
def ofNode (n : Node Origin) (origin : Origin) : Expression :=
  ⟨n.adopt origin, origin⟩

/-- Reads a template found in a file at a position.  Names are interpreted as
`interpret` says.  A template that is not well formed gives diagnostics; a string
literal with a part that is not text gives nothing but the kind of that part. -/
def parse (text file : String) (start : Config.Pos)
    (interpret : String → Range → Lookup) : Except Kind (Except Diagnostics Expression) :=
  let source := Utf8.encode text.toList
  match Template.parse text (toTemplatePos file start) with
  | .ok n => .ok (.ok (ofNode n ⟨source, start, interpret⟩))
  | .error (.malformed e) =>
    .ok (.error ((Problem.ofSyntaxError e).diagnostics source start))
  | .error (.notText kind) => .error kind

/-- The value of an expression in a context, or without one. -/
def value (e : Expression) (context : Option Context) : Except Fault Result :=
  match Evaluation.evaluate (.ofContext context) e.root with
  | .ok (v, warnings) => .ok ⟨v.toConfig, warnings⟩
  | .error failure => do
    let problem ← Problem.ofFailure failure
    return ⟨.dynamic, problem.diagnostics e.origin.source e.origin.start⟩

/-- The accesses in a tree that have an owner, each with its position and name. -/
def accesses (n : Node Origin) : List (Origin × Template.Pos × String) :=
  n.subtrees.filterMap fun
    | .access (some o) p name => some (o, p, name)
    | _ => none

/-- The paths that an expression depends on. -/
def «variables» (e : Expression) : List Traversal :=
  (accesses e.root).flatMap fun (o, p, name) =>
    (e.origin.interpret name (o.nameRange p name)).variables

/-- Where a node of an expression is written. -/
def nodeRange (e : Expression) (n : Node Origin) : Range :=
  e.origin.rangeAt n.pos

/-- Where an expression is written. -/
def range (e : Expression) : Range :=
  e.nodeRange e.root

/-- Where the names of an expression are written, each with its name. -/
def nameRanges (e : Expression) : List (String × Range) :=
  (accesses e.root).map fun (o, p, name) => (name, o.nameRange p name)

/-- The expression in one line, unless its root has no text. -/
def summary (e : Expression) : Option String :=
  e.root.summary.map fun shown => "Expression(" ++ shown ++ ")"

end Expression

end Interpolation
