/-
Cutting a template into literal text and interpolations.

* `takeCode_append` — an interpolation and its closing brace are read without
  loss;
* `split_nil`, `split_escape`, `split_open`, `split_open_none` — the cuts, case by
  case.

Design notes: a dollar sign and a brace begin an interpolation; with a second
dollar sign before them they stand for themselves.  The brace that closes an
interpolation is the first one outside of inner braces and string literals.
Literal text between two interpolations is one piece however it is written.
-/
namespace Interpolation.Template

/-- A part of a template, with the offset at which it begins. -/
inductive Piece where
  | text (offset : Nat) (chars : List Char)
  /-- The source of an interpolated expression. -/
  | code (offset : Nat) (source : List Char)
  /-- An interpolation that is never closed. -/
  | unclosed (offset : Nat)
  deriving DecidableEq, Repr

namespace Piece

/-- Where the search for a closing brace is. -/
inductive Within where
  | code (depth : Nat)
  | string (depth : Nat)
  /-- Behind a backslash in a string. -/
  | escape (depth : Nat)
  deriving DecidableEq, Repr

/-- Where the search is after one more character; nothing once the interpolation
is closed. -/
def Within.pass : Within → Char → Option Within
  | .code depth, c =>
    if c = '"' then some (.string depth)
    else if c = '\x7b' then some (.code (depth + 1))
    else if c = '\x7d' then (match depth with
      | 0 => none
      | outer + 1 => some (.code outer))
    else some (.code depth)
  | .string depth, c =>
    if c = '"' then some (.code depth)
    else if c = '\\' then some (.escape depth)
    else some (.string depth)
  | .escape depth, _ => some (.string depth)

/-- The text up to the brace that closes an interpolation, and the text behind
that brace. -/
def takeCode (within : Within) : List Char → Option (List Char × List Char)
  | [] => none
  | c :: cs =>
    match within.pass c with
    | none => some ([], cs)
    | some next => (takeCode next cs).map fun r => (c :: r.1, r.2)

/-- Puts literal text in front, joining it to literal text that follows. -/
def addText (offset : Nat) (chars : List Char) : List Piece → List Piece
  | .text _ more :: rest => .text offset (chars ++ more) :: rest
  | pieces => .text offset chars :: pieces

theorem takeCode_append {within : Within} {cs source rest : List Char}
    (h : takeCode within cs = some (source, rest)) :
    ∃ close, source ++ close :: rest = cs := by
  induction cs generalizing within source with
  | nil => cases h
  | cons c cs ih =>
    rw [takeCode] at h
    split at h
    · cases h
      exact ⟨c, rfl⟩
    · obtain ⟨r, hr, heq⟩ := Option.map_eq_some_iff.mp h
      cases heq
      obtain ⟨close, hclose⟩ := ih hr
      exact ⟨close, by simp [hclose]⟩

theorem takeCode_length {within : Within} {cs source rest : List Char}
    (h : takeCode within cs = some (source, rest)) : source.length + rest.length < cs.length := by
  obtain ⟨close, rfl⟩ := takeCode_append h
  simp

/-- Cuts a template that begins at an offset into pieces. -/
def split (offset : Nat) : List Char → List Piece
  | [] => []
  | '$' :: '$' :: '\x7b' :: cs => addText offset ['$', '\x7b'] (split (offset + 3) cs)
  | '$' :: '\x7b' :: cs =>
    match _h : takeCode (.code 0) cs with
    | none => [.unclosed offset]
    | some (source, rest) =>
      .code (offset + 2) source :: split (offset + 2 + source.length + 1) rest
  | c :: cs => addText offset [c] (split (offset + 1) cs)
termination_by cs => cs.length
decreasing_by
  · simp only [List.length_cons]; omega
  · have := takeCode_length _h
    simp only [List.length_cons]; omega
  · simp

theorem split_nil (offset : Nat) : split offset [] = [] := by
  rw [split]

theorem split_escape (offset : Nat) (cs : List Char) :
    split offset ('$' :: '$' :: '\x7b' :: cs) =
      addText offset ['$', '\x7b'] (split (offset + 3) cs) := by
  rw [split]

theorem split_open_none (offset : Nat) {cs : List Char} (h : takeCode (.code 0) cs = none) :
    split offset ('$' :: '\x7b' :: cs) = [.unclosed offset] := by
  rw [split]
  split <;> simp_all

theorem split_open (offset : Nat) {cs source rest : List Char}
    (h : takeCode (.code 0) cs = some (source, rest)) :
    split offset ('$' :: '\x7b' :: cs) =
      .code (offset + 2) source :: split (offset + 2 + source.length + 1) rest := by
  rw [split]
  split <;> simp_all

end Piece

end Interpolation.Template
