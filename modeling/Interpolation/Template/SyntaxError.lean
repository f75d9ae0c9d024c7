/-
Errors in the text of a template.

Design notes: an error is a cause and a position.  One more failure is not an
error of this kind: a string literal in which an interpolation holds a number or
a bool cannot be unescaped, since only text can.
-/
import Interpolation.Template.Pos
import Interpolation.Text.Quoted
import Interpolation.Value

namespace Interpolation.Template

/-- What is wrong with a template. -/
inductive SyntaxError.Cause where
  /-- An interpolation is never closed. -/
  | unterminated
  /-- Nothing is written between the braces. -/
  | emptyInterpolation
  /-- The expression ends where more is needed. -/
  | unexpectedEnd
  /-- A token cannot follow the ones before it. -/
  | unexpectedToken (text : String)
  /-- No token begins with a character. -/
  | unexpectedCharacter (c : Char)
  /-- A whole number has too many digits. -/
  | invalidNumber
  deriving DecidableEq, Repr

/-- The wording of a cause. -/
def SyntaxError.Cause.message : SyntaxError.Cause → String
  | .unterminated => "unterminated interpolation sequence"
  | .emptyInterpolation => "empty interpolation sequence"
  | .unexpectedEnd => "unexpected end of expression"
  | .unexpectedToken text => "unexpected " ++ Quoted.quote text
  | .unexpectedCharacter c => "unexpected character " ++ Quoted.quote (String.singleton c)
  | .invalidNumber => "invalid number literal"

/-- An error in a template and where it was found. -/
structure SyntaxError where
  cause : SyntaxError.Cause
  pos : Pos
  deriving DecidableEq, Repr

/-- The text of an error with the position in front. -/
def SyntaxError.describe (message : String) (pos : Pos) : String :=
  pos.text ++ ": " ++ message

/-- The text of an error. -/
def SyntaxError.text (e : SyntaxError) : String :=
  describe e.cause.message e.pos

/-- How reading a template fails. -/
inductive ParseFailure where
  | malformed (e : SyntaxError)
  /-- A part of a string literal is a literal of another kind than text. -/
  | notText (kind : Kind)
  deriving DecidableEq, Repr

/-- The wording of the failure to unescape something that is not text. -/
def ParseFailure.notTextMessage (kind : Kind) : String :=
  "object of type '" ++ kind.name ++ "' has no len()"

end Interpolation.Template
