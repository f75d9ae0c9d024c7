/-
Positions and ranges in configuration sources.

* `Pos.advance_byte` — the byte offset moves by the number of bytes.

Design notes: columns count grapheme clusters.  A line ends at a line feed,
whether or not a carriage return stands before it; a lone carriage return is a
character like any other.
-/
import Interpolation.Number.Digits
import Interpolation.Text.Grapheme
import Interpolation.Text.Utf8

namespace Interpolation

/-- A sequence of bytes. -/
abbrev Bytes := List UInt8

namespace Config

/-- A position in a source: line and column from 1, byte offset from 0. -/
structure Pos where
  line : Int
  column : Int
  byte : Int
  deriving DecidableEq, Repr

namespace Pos

/-- The position of nothing. -/
def zero : Pos := ⟨0, 0, 0⟩

/-- The beginning of a file. -/
def initial : Pos := ⟨1, 1, 0⟩

/-- Line and column of a position. -/
def text (p : Pos) : String :=
  Digits.text p.line ++ "," ++ Digits.text p.column

/-- Whether a cluster ends a line. -/
def endsLine (cluster : List Char) : Bool :=
  cluster = ['\n'] || cluster = ['\r', '\n']

/-- Moves over one cluster, leaving the byte offset alone. -/
def pass (p : Pos) (cluster : List Char) : Pos :=
  if endsLine cluster then { p with line := p.line + 1, column := 1 }
  else { p with column := p.column + 1 }

/-- Moves over bytes. -/
def advance (p : Pos) (bytes : Bytes) : Pos :=
  { (Grapheme.clusters (Utf8.decode bytes)).foldl pass p with byte := p.byte + bytes.length }

@[simp] theorem advance_byte (p : Pos) (bytes : Bytes) :
    (p.advance bytes).byte = p.byte + bytes.length := rfl

end Pos

/-- A span of a source. -/
structure Range where
  file : String
  start : Pos
  stop : Pos
  deriving DecidableEq, Repr

namespace Range

/-- The range that stands for a place which is not known. -/
def placeholder (file : String) : Range := ⟨file, .zero, .zero⟩

/-- The range in the form `file:line,column-column`, or with both lines when it
spans several. -/
def text (r : Range) : String :=
  if r.start.line = r.stop.line then
    r.file ++ ":" ++ r.start.text ++ "-" ++ Digits.text r.stop.column
  else r.file ++ ":" ++ r.start.text ++ "-" ++ r.stop.text

end Range

end Config

end Interpolation
