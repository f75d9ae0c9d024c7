/-
Blank text.

A text is blank when it is empty or holds only white space, in the wide sense
that covers the separators of every script and the four information separators
of ASCII.
-/
import Interpolation.Text.CharSet

namespace Interpolation

/-- White space of every script. -/
def blanks : CharSet := ⟨[
    (0x9, 0xD), (0x1C, 0x20), (0x85, 0x85), (0xA0, 0xA0), (0x1680, 0x1680), (0x2000, 0x200A),
    (0x2028, 0x2029), (0x202F, 0x202F), (0x205F, 0x205F), (0x3000, 0x3000)]⟩

/-- Whether every character of a text is white space. -/
def isBlank (cs : List Char) : Bool :=
  cs.all blanks.contains

end Interpolation
