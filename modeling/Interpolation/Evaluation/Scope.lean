/-
Scopes: what names without an owner refer to.

Design notes: a scope binds variables and functions.  The scope in which an
expression is evaluated binds nothing of its own; it carries the configuration
context under a reserved name that no template can spell, for the names that
have an owner.
-/
import Interpolation.Config.Context
import Interpolation.Evaluation.Failure

namespace Interpolation.Evaluation

/-- A variable of a scope; its kind may be declared to differ from the kind of
its value. -/
structure Variable where
  value : Value
  kind : Kind

/-- The variable that holds a value. -/
def Variable.ofValue (v : Value) : Variable := ⟨v, v.kind⟩

/-- A function of a scope. -/
structure ScopeFunction where
  /-- How many arguments are expected. -/
  parameters : Nat
  /-- Whether more arguments are accepted. -/
  variadic : Bool
  returns : Kind
  call : Callback

/-- Whether a function takes a number of arguments. -/
def ScopeFunction.accepts (f : ScopeFunction) (n : Nat) : Bool :=
  n = f.parameters || (f.parameters < n && f.variadic)

/-- Variables and functions by name, and the context that names with an owner
are looked up in; `some none` is the absence of a context where one could be. -/
structure Scope where
  «variables» : List (String × Variable)
  functions : List (String × ScopeFunction)
  context : Option (Option Config.Context)

namespace Scope

/-- The scope without any names. -/
def empty : Scope := ⟨[], [], none⟩

/-- The scope of an expression that is evaluated in a context. -/
def ofContext (context : Option Config.Context) : Scope := ⟨[], [], some context⟩

/-- The name under which a scope carries its context. -/
def contextName : String := "<hcl eval context>"

/-- The names of the variables of a scope, the reserved one included. -/
def variableNames (s : Scope) : List String :=
  s.variables.map Prod.fst ++ (if s.context.isSome then [contextName] else [])

/-- The names of the functions of a scope. -/
def functionNames (s : Scope) : List String :=
  s.functions.map Prod.fst

/-- Names in order, in brackets. -/
def namesText (names : List String) : String :=
  let sorted := names.mergeSort fun a b => decide (a ≤ b)
  Value.bracket "[" "]" (sorted.map Quoted.quote)

/-- A scope in one line: the names it binds. -/
def text (s : Scope) : String :=
  "BasicScope(vars=" ++ namesText s.variableNames ++ ", funcs=" ++
    namesText s.functionNames ++ ")"

/-- The variable of a name. -/
def findVariable (s : Scope) (name : String) : Except Failure Variable :=
  match s.variables.lookup name with
  | some v => .ok v
  | none => .error (.error (.unknownVariable name))

/-- The function of a name. -/
def findFunction (s : Scope) (name : String) : Except Failure ScopeFunction :=
  match s.functions.lookup name with
  | some f => .ok f
  | none => .error (.error (.unknownFunction name))

end Scope

end Interpolation.Evaluation
