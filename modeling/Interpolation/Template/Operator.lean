/-
Operators of the template language.

* `BinaryOp.ofSymbol?_symbol`, `UnaryOp.ofSymbol?_symbol` — an operator can be
  read off its symbol.

Design notes: a binary operator binds at one of five levels, from `||` as the
loosest to `*` as the tightest.  Operators of one level associate to the left,
except that comparisons do not chain.
-/
namespace Interpolation.Template

/-- Operators with one operand. -/
inductive UnaryOp where
  | negate
  | not
  deriving DecidableEq, Repr

/-- Operators with two operands. -/
inductive BinaryOp where
  | add
  | subtract
  | multiply
  | divide
  | modulo
  | equal
  | notEqual
  | less
  | lessEqual
  | greater
  | greaterEqual
  | and
  | or
  deriving DecidableEq, Repr

namespace UnaryOp

def all : List UnaryOp := [.negate, .not]

/-- How an operator is written. -/
def symbol : UnaryOp → String
  | .negate => "-"
  | .not => "!"

/-- The operator written in a given way. -/
def ofSymbol? (s : String) : Option UnaryOp :=
  all.find? fun op => op.symbol == s

theorem ofSymbol?_symbol (op : UnaryOp) : ofSymbol? op.symbol = some op := by
  cases op <;> rfl

end UnaryOp

namespace BinaryOp

def all : List BinaryOp :=
  [.add, .subtract, .multiply, .divide, .modulo, .equal, .notEqual, .less, .lessEqual,
    .greater, .greaterEqual, .and, .or]

/-- How an operator is written. -/
def symbol : BinaryOp → String
  | .add => "+"
  | .subtract => "-"
  | .multiply => "*"
  | .divide => "/"
  | .modulo => "%"
  | .equal => "=="
  | .notEqual => "!="
  | .less => "<"
  | .lessEqual => "<="
  | .greater => ">"
  | .greaterEqual => ">="
  | .and => "&&"
  | .or => "||"

/-- The operator written in a given way. -/
def ofSymbol? (s : String) : Option BinaryOp :=
  all.find? fun op => op.symbol == s

/-- How tightly an operator binds its operands. -/
def level : BinaryOp → Nat
  | .or => 1
  | .and => 2
  | .equal | .notEqual | .less | .lessEqual | .greater | .greaterEqual => 3
  | .add | .subtract => 4
  | .multiply | .divide | .modulo => 5

/-- Whether an operator compares its operands. -/
def isComparison (op : BinaryOp) : Bool :=
  op.level == 3

/-- Whether an operator gives a bool. -/
def isLogical (op : BinaryOp) : Bool :=
  op.level ≤ 3

theorem ofSymbol?_symbol (op : BinaryOp) : ofSymbol? op.symbol = some op := by
  cases op <;> rfl

end BinaryOp

end Interpolation.Template
