/-
Positions in template sources.

* `Pos.after_append` — moving over a text can be done in parts;
* `Pos.after_line` — the line grows by the number of line feeds passed.

Design notes: a template may be a fragment of a larger file, so its first
character has a position of its own.  Columns count bytes; a line feed begins a
new line at column 1.
-/
import Interpolation.Number.Digits
import Interpolation.Text.Utf8

namespace Interpolation.Template

/-- A place in a template source. -/
structure Pos where
  file : String
  line : Int
  column : Int
  deriving DecidableEq, Repr

namespace Pos

/-- The position of nothing. -/
def zero : Pos := ⟨"", 0, 0⟩

/-- The position in the form `file:line:column`; an unnamed file is left out. -/
def text (p : Pos) : String :=
  let place := Digits.text p.line ++ ":" ++ Digits.text p.column
  if p.file = "" then place else p.file ++ ":" ++ place

/-- The position after one character. -/
def pass (p : Pos) (c : Char) : Pos :=
  if c = '\n' then { p with line := p.line + 1, column := 1 }
  else { p with column := p.column + c.utf8Size }

/-- The position after a text. -/
def after (p : Pos) (cs : List Char) : Pos :=
  cs.foldl pass p

/-- The position at an offset into a text that begins at `start`. -/
def locate (start : Pos) (cs : List Char) (offset : Nat) : Pos :=
  start.after (cs.take offset)

@[simp] theorem after_nil (p : Pos) : p.after [] = p := rfl

@[simp] theorem after_cons (p : Pos) (c : Char) (cs : List Char) :
    p.after (c :: cs) = (p.pass c).after cs := rfl

theorem after_append (p : Pos) (a b : List Char) : p.after (a ++ b) = (p.after a).after b := by
  simp [after]

theorem after_file (p : Pos) (cs : List Char) : (p.after cs).file = p.file := by
  induction cs generalizing p with
  | nil => rfl
  | cons c cs ih =>
    rw [after_cons, ih, pass]
    split <;> rfl

theorem after_line (p : Pos) (cs : List Char) :
    (p.after cs).line = p.line + cs.count '\n' := by
  induction cs generalizing p with
  | nil => simp
  | cons c cs ih =>
    rw [after_cons, ih, pass]
    by_cases h : c = '\n'
    · simp [h]; omega
    · simp [h]

/-- Within a line the column grows by the number of bytes. -/
theorem after_column {cs : List Char} (h : '\n' ∉ cs) (p : Pos) :
    (p.after cs).column = p.column + Utf8.byteLength cs := by
  induction cs generalizing p with
  | nil => simp
  | cons c cs ih =>
    simp only [List.mem_cons, not_or] at h
    rw [after_cons, ih h.2, pass, if_neg (Ne.symm h.1)]
    simp; omega

end Pos

end Interpolation.Template
