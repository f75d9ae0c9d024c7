/-
Traversals: paths from a variable into its value.

Design notes: a traversal has at least one step.  It is absolute when it starts
with a root, which names a variable; only an absolute one can be applied to a
context.  The first error ends the walk.
-/
import Interpolation.Config.Context
import Interpolation.Config.Index

namespace Interpolation.Config

/-- One step of a traversal. -/
inductive Step where
  /-- Names a variable. -/
  | root (name : String) (range : Range)
  /-- Looks up an attribute by name. -/
  | attribute (name : String) (range : Range)
  /-- Looks up an element by key. -/
  | index (key : Value) (range : Range)

namespace Step

/-- Where a step is written. -/
def range : Step → Range
  | .root _ range | .attribute _ range | .index _ range => range

/-- Takes a step into a value. -/
def apply (step : Step) (v : Value) : Except Fault Result :=
  match step with
  | .root .. => .error .misplacedRoot
  | .attribute name range => Config.index v (.text name) (some range)
  | .index key range => Config.index v key (some range)

end Step

/-- A path: its first step and the ones after it. -/
structure Traversal where
  first : Step
  rest : List Step

namespace Traversal

/-- How a traversal is misused. -/
inductive Misuse where
  | noSteps
  | noRootName
  deriving DecidableEq, Repr

/-- The wording of a misuse. -/
def Misuse.message : Misuse → String
  | .noSteps => "Traversal requires at least one step"
  | .noRootName => "Relative traversal has no root name"

/-- The traversal with the given steps. -/
def ofSteps : List Step → Except Misuse Traversal
  | [] => .error .noSteps
  | first :: rest => .ok ⟨first, rest⟩

/-- All steps in order. -/
def steps (t : Traversal) : List Step :=
  t.first :: t.rest

/-- The variable an absolute traversal starts from. -/
def rootName : Traversal → Except Misuse String
  | ⟨.root name _, _⟩ => .ok name
  | _ => .error .noRootName

/-- Whether a traversal starts without naming a variable. -/
def isRelative : Traversal → Bool
  | ⟨.root .., _⟩ => false
  | _ => true

/-- From the beginning of the first step to the end of the last. -/
def range (t : Traversal) : Range :=
  let last := (t.rest.getLast?).getD t.first
  ⟨t.first.range.file, t.first.range.start, last.range.stop⟩

/-- Walks from a value along steps until one is in error. -/
def apply : List Step → Value → Except Fault Result
  | [], v => .ok (.ofValue v)
  | step :: rest, v => do
    let found ← step.apply v
    if hasErrors found.diagnostics then return ⟨.dynamic, found.diagnostics⟩
    apply rest found.value

/-- Applies a traversal to a context, or to none. -/
def value (t : Traversal) (context : Option Context) : Except Fault Result :=
  match t.first with
  | .root name range =>
    match context with
    | none =>
      .ok (.ofError "Variables not allowed" "Variables may not be used here." (some range))
    | some c =>
      match c.lookupVariable name with
      | some v => apply t.rest v
      | none =>
        .ok (.ofError "Unknown variable"
          ("There is no variable named " ++ Quoted.quote name ++ ".") (some range))
  | _ => .error .relativeTraversal

end Traversal

end Interpolation.Config
