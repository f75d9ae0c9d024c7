/-
Contexts: the variables and functions a configuration expression can use.

* `lookupVariable_child`, `lookupFunction_child` — look-ups start at the innermost level
  and go on outwards.

Design notes: a context is a chain of levels.  A variable bound to null hides
one of the same name further out.  A function name may be bound to nothing,
which hides nothing.
-/
import Interpolation.Function

namespace Interpolation.Config

/-- One level of bindings. -/
structure Level where
  «variables» : List (String × Value)
  functions : List (String × Option Function)

/-- A chain of levels, the innermost apart. -/
structure Context where
  innermost : Level
  outer : List Level

namespace Context

/-- The levels from the inside out. -/
def levels (c : Context) : List Level :=
  c.innermost :: c.outer

/-- A context nested in another. -/
def child (c : Context) (level : Level) : Context :=
  ⟨level, c.levels⟩

/-- A context of a single level, or one nested in a given context. -/
def ofLevel (level : Level) : Option Context → Context
  | some parent => parent.child level
  | none => ⟨level, []⟩

/-- The value of a variable. -/
def lookupVariable (c : Context) (name : String) : Option Value :=
  c.levels.findSome? fun level => level.variables.lookup name

/-- The function of a name. -/
def lookupFunction (c : Context) (name : String) : Option Function :=
  c.levels.findSome? fun level => (level.functions.lookup name).join

/-- The context in messages: the names of its innermost variables in order. -/
def text (c : Context) : String :=
  let names := (c.innermost.variables.map Prod.fst).mergeSort fun a b => decide (a ≤ b)
  "EvalContext(" ++ ", ".intercalate names ++ ")"

theorem lookupVariable_child (c : Context) (level : Level) (name : String) :
    (c.child level).lookupVariable name =
      (level.variables.lookup name).or (c.lookupVariable name) := by
  simp only [lookupVariable, levels, child, List.findSome?_cons]
  cases level.variables.lookup name <;> rfl

theorem lookupFunction_child (c : Context) (level : Level) (name : String) :
    (c.child level).lookupFunction name =
      (level.functions.lookup name).join.or (c.lookupFunction name) := by
  simp only [lookupFunction, levels, child, List.findSome?_cons]
  cases (level.functions.lookup name).join <;> rfl

end Context

end Interpolation.Config
