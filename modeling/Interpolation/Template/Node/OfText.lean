/-
Reading templates.

* `parse_empty` — the empty template has no parts.

Design notes: reading an expression has two phases.  First the whole expression
is read as a phrase; only then do its literals get their values, from left to
right, which is where numbers and string literals may still fail.  The body of a
string literal is a template itself and shorter than the text around it, so the
length of the whole text bounds how deep string literals can be nested.
-/
import Interpolation.Template.Lexer
import Interpolation.Template.Node.OfPhrase
import Interpolation.Template.Phrase.Reader
import Interpolation.Template.Piece
import Interpolation.Text.Blank

namespace Interpolation.Template

/-- Reads the expression written at an offset; an error comes with the offset at
which it was found. -/
def readPhrase (offset : Nat) (source : List Char) :
    Except (SyntaxError.Cause × Nat) Phrase :=
  let lexed := Lexer.tokens .operand offset source
  match Reader.start.run lexed.lexemes with
  | .error bad => .error (.unexpectedToken (String.ofList bad.token.text), bad.offset)
  | .ok reader =>
    match lexed.stuck with
    | some (c, place) => .error (.unexpectedCharacter c, place)
    | none =>
      match reader.result? with
      | some phrase => .ok phrase
      | none => .error (.unexpectedEnd, offset + source.length)

variable {Owner : Type}

/-- The node of the expression between the braces of an interpolation. -/
def expression (locate : Nat → Pos)
    (string : Nat → List Char → Except ParseFailure (Node Owner)) (offset : Nat)
    (source : List Char) : Except ParseFailure (Node Owner) :=
  if isBlank source then .error (.malformed ⟨.emptyInterpolation, locate offset⟩)
  else
    match readPhrase offset source with
    | .error (cause, place) => .error (.malformed ⟨cause, locate place⟩)
    | .ok phrase => Node.ofPhrase locate string phrase

/-- The node of a piece. -/
def ofPiece (locate : Nat → Pos)
    (string : Nat → List Char → Except ParseFailure (Node Owner)) :
    Piece → Except ParseFailure (Node Owner)
  | .text offset chars => .ok (.literal (locate offset) (.text (String.ofList chars)))
  | .code offset source => expression locate string offset source
  | .unclosed offset => .error (.malformed ⟨.unterminated, locate offset⟩)

/-- The nodes of the pieces of a template. -/
def ofPieces (locate : Nat → Pos)
    (string : Nat → List Char → Except ParseFailure (Node Owner)) :
    List Piece → Except ParseFailure (List (Node Owner))
  | [] => .ok []
  | piece :: rest => do
    let n ← ofPiece locate string piece
    let nodes ← ofPieces locate string rest
    return n :: nodes

/-- The node of a string literal whose body begins at an offset.  The first
argument bounds the nesting; at the last level only an empty body is left. -/
def ofString (locate : Nat → Pos) : Nat → Nat → List Char → Except ParseFailure (Node Owner)
  | 0, offset, _ => .ok (.literal (locate offset) (.text ""))
  | level + 1, offset, body => do
    let parts ← ofPieces locate (ofString locate level) (Piece.split offset body)
    closeString (locate offset) parts

/-- Reads a template whose first character is at `start`. -/
def parse (text : String) (start : Pos) : Except ParseFailure (Node Owner) := do
  let chars := text.toList
  let locate := start.locate chars
  let parts ← ofPieces locate (ofString locate chars.length) (Piece.split 0 chars)
  return .output start parts

theorem parse_empty (start : Pos) :
    (parse "" start : Except ParseFailure (Node Owner)) = .ok (.output start []) := by
  simp [parse, Piece.split_nil, ofPieces, bind, Except.bind, pure, Except.pure]

end Interpolation.Template
