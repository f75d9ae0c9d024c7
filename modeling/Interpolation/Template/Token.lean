/-
Tokens of the expressions inside a template.

* `Token.text` — how a token is written; a token is fixed by its text and by
  whether an operand or an operator is due.

Design notes: what may come next alternates between operands and operators, and
`Token.leads` says which of the two follows a token.  The exclamation mark
depends on it: where an operator is due it may begin `!=`, elsewhere it is a
token by itself.
-/
import Interpolation.Template.Operator

namespace Interpolation.Template

/-- A token. -/
inductive Token where
  | number (digits : List Char)
  | bool (b : Bool)
  /-- A string literal: what is written between the quotes. -/
  | quoted (body : List Char)
  | name (text : List Char)
  /-- A binary operator; the minus sign is also a unary one. -/
  | operator (op : BinaryOp)
  | bang
  | question
  | colon
  | comma
  | openParen
  | closeParen
  | openBracket
  | closeBracket
  deriving DecidableEq, Repr

/-- What is due in an expression. -/
inductive Due where
  | operand
  | operator
  deriving DecidableEq, Repr

namespace Token

/-- How a token is written. -/
def text : Token → List Char
  | .number digits => digits
  | .bool true => ['t', 'r', 'u', 'e']
  | .bool false => ['f', 'a', 'l', 's', 'e']
  | .quoted body => '"' :: body ++ ['"']
  | .name text => text
  | .operator op => op.symbol.toList
  | .bang => ['!']
  | .question => ['?']
  | .colon => [':']
  | .comma => [',']
  | .openParen => ['(']
  | .closeParen => [')']
  | .openBracket => ['[']
  | .closeBracket => [']']

/-- What is due after a token. -/
def leads : Token → Due
  | .number _ | .bool _ | .quoted _ | .name _ | .closeParen | .closeBracket => .operator
  | _ => .operand

/-- The token of a word: a bool when it is spelled like one. -/
def ofWord (word : List Char) : Token :=
  if word = ['t', 'r', 'u', 'e'] then .bool true
  else if word = ['f', 'a', 'l', 's', 'e'] then .bool false
  else .name word

theorem text_ofWord (word : List Char) : (ofWord word).text = word := by
  unfold ofWord
  split
  · next h => rw [h]; rfl
  · split
    · next h => rw [h]; rfl
    · rfl

end Token

/-- A token and the offset at which it begins. -/
structure Lexeme where
  token : Token
  offset : Nat
  deriving DecidableEq, Repr

end Interpolation.Template
