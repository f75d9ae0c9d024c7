/-
References: what the names in an expression refer to.

Design notes: an expression is free in how it interprets names; `Lookup` is all
it has to know of a name.  An interpretation may report errors with the value it
gives, or fail like a function of a context.  The usual interpretation reads a name
as a path: its first segment is a variable, and each further segment between dots is
a key, even when it is made of digits.  The range of a step follows from the range
of the name, which is taken to begin where the name does.
-/
import Interpolation.Config.Scan
import Interpolation.Config.Traversal
import Interpolation.Evaluation.Failure

namespace Interpolation.Expression

open Config

/-- How a look-up ends without a result. -/
inductive LookupFailure where
  | error (e : EvalError)
  | fault (f : Fault)

/-- The failure of an evaluation that comes to a look-up without a result. -/
def LookupFailure.toFailure : LookupFailure → Failure
  | .error e => .error e
  | .fault f => .fault f

/-- What an expression needs to know of a name. -/
structure Lookup where
  value : Option Context → Except LookupFailure Result
  /-- The variables the name depends on. -/
  «variables» : List Traversal

/-- Why a name is no path. -/
inductive NameError where
  | empty
  /-- A dot without a segment before it, or without one behind it at the end. -/
  | emptySegment (dot : Range)
  deriving DecidableEq, Repr

/-- The report of a name that is no path. -/
def NameError.diagnostic (range : Range) : NameError → Diagnostic
  | .empty =>
    .error "Empty variable reference"
      "There must be at least one character in a variable reference." (some range)
  | .emptySegment dot =>
    .error "Invalid variable reference"
      "A variable reference cannot contain an empty attribute name." (some dot)

/-- The step of a segment; the first segment of a name is the root. -/
def stepOf (isFirst : Bool) (token : Token) : Step :=
  let segment := String.ofList (Utf8.decode token.bytes)
  if isFirst then .root segment token.range else .index (.text segment) token.range

/-- Gathers the steps of a name from its segments and dots.  `separator` is the
dot that waits for a segment. -/
def gather (steps : List Step) (separator : Option Range) :
    List Token → Except NameError (List Step)
  | [] =>
    match separator with
    | some dot => .error (.emptySegment dot)
    | none => .ok steps
  | token :: rest =>
    if token.bytes = [0x2E] then
      if separator.isSome || steps.isEmpty then .error (.emptySegment token.range)
      else gather steps (some token.range) rest
    else gather (steps ++ [stepOf steps.isEmpty token]) none rest

/-- The path a name stands for. -/
def traversalOf (name : String) (range : Range) : Except NameError Traversal := do
  let tokens := (scan splitStep range.file range.start (Utf8.encode name.toList)).tokens
  match ← gather [] none tokens with
  | [] => throw .empty
  | first :: rest => return ⟨first, rest⟩

/-- What a name refers to under the usual interpretation. -/
inductive Reference where
  | path (t : Traversal)
  | failing (diagnostics : Diagnostics) (range : Range)

namespace Reference

/-- The reference of a name. -/
def ofName (name : String) (range : Range) : Reference :=
  match traversalOf name range with
  | .ok t => .path t
  | .error e => .failing [e.diagnostic range] range

/-- The value of a reference in a context. -/
def value : Reference → Option Context → Except Fault Result
  | .path t, context => t.value context
  | .failing diagnostics _, _ => .ok ⟨.dynamic, diagnostics⟩

/-- The paths a reference depends on. -/
def «variables» : Reference → List Traversal
  | .path t => [t]
  | .failing .. => []

/-- Where a reference is written. -/
def range : Reference → Range
  | .path t => t.range
  | .failing _ range => range

/-- The reference as an interpretation of its name. -/
def lookup (r : Reference) : Lookup :=
  ⟨fun context => (r.value context).mapError .fault, r.variables⟩

end Reference

/-- The usual interpretation of names. -/
def interpretName (name : String) (range : Range) : Lookup :=
  (Reference.ofName name range).lookup

end Interpolation.Expression
