/-
String literals of the template language.

* `unescape_plain` — text without backslashes is left alone;
* `closeString_text` — a string literal without interpolations is a literal.

Design notes: four escapes are known, and a backslash before any other character
stays.  Escapes are undone in the literal text between interpolations, after the
interpolations have been cut out.
-/
import Interpolation.Template.Node
import Interpolation.Template.SyntaxError

namespace Interpolation.Template

/-- Literal text with its escapes undone. -/
def unescape : List Char → List Char
  | '\\' :: c :: cs =>
    if c = 'n' then '\n' :: unescape cs
    else if c = 't' then '\t' :: unescape cs
    else if c = '"' || c = '\\' then c :: unescape cs
    else '\\' :: c :: unescape cs
  | c :: cs => c :: unescape cs
  | [] => []

variable {Owner : Type}

/-- A part of a string literal with the escapes of its text undone. -/
def unescapePart : Node Owner → Except ParseFailure (Node Owner)
  | .literal pos (.text s) => .ok (.literal pos (.text (String.ofList (unescape s.toList))))
  | .literal _ value => .error (.notText value.kind)
  | part => .ok part

/-- The node of a string literal with the given parts: a literal when there is
nothing but text in it. -/
def closeString (pos : Pos) (parts : List (Node Owner)) : Except ParseFailure (Node Owner) := do
  match ← parts.mapM unescapePart with
  | [] => return .literal pos (.text "")
  | [.literal place value] => return .literal place value
  | parts => return .output pos parts

theorem unescape_plain {cs : List Char} (h : '\\' ∉ cs) : unescape cs = cs := by
  induction cs with
  | nil => rfl
  | cons c cs ih =>
    simp only [List.mem_cons, not_or] at h
    rw [unescape, ih h.2]
    exact fun _ _ heq => absurd heq.symm h.1

theorem closeString_text (pos place : Pos) (s : String) :
    closeString pos [(.literal place (.text s) : Node Owner)] =
      .ok (.literal place (.text (String.ofList (unescape s.toList)))) := rfl

end Interpolation.Template
