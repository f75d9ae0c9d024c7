/-
Where a template position lies in the source of an expression.

* `place?_start_line` — a range starts on the line of the position.

Design notes: template positions have a line and a byte column and nothing else.
Configuration ranges count columns in grapheme clusters, carry byte offsets and
have an end.  The source text reconciles the two: the line is looked up in it and
the bytes before the column are counted anew.  Templates do not know where their
nodes end, so a range runs to the end of its line.  A position that is not in
the source has only a placeholder for a range.
-/
import Interpolation.Config.Scan
import Interpolation.Template.Pos

namespace Interpolation.Expression

open Config (Range Token)

/-- The template position on the line and column of a configuration position. -/
def toTemplatePos (file : String) (p : Config.Pos) : Template.Pos :=
  ⟨file, p.line, p.column⟩

/-- The range on a line of the source that starts a number of bytes into it. -/
def rangeWithin (file : String) (line : Token) (offset : Nat) : Range :=
  let start : Config.Pos :=
    { line := line.range.start.line
      column := line.range.start.column + Config.clusterCount (line.bytes.take offset)
      byte := line.range.start.byte + offset }
  ⟨file, start, line.range.stop⟩

/-- The range on a line at a byte offset from its beginning, if the line reaches
that far. -/
def placeOn (file : String) (line : Token) (offset : Int) : Option Range :=
  if 0 ≤ offset ∧ offset ≤ line.bytes.length then some (rangeWithin file line offset.toNat)
  else none

/-- The column at which a line begins: the first line of a fragment begins where
the fragment does. -/
def firstColumn (start : Config.Pos) (number : Nat) : Int :=
  if number = 0 then start.column else 1

/-- The range of a position in a source fragment that begins at `start`, if the
fragment has that position. -/
def place? (p : Template.Pos) (source : Bytes) (start : Config.Pos) : Option Range :=
  let lines := (Config.lines p.file start source).zipIdx
  match lines.find? fun entry => entry.1.range.start.line == p.line with
  | some (line, number) => placeOn p.file line (p.column - firstColumn start number)
  | none => none

/-- The range of a position, or a placeholder. -/
def rangeOf (p : Template.Pos) (source : Bytes) (start : Config.Pos) : Range :=
  (place? p source start).getD (.placeholder p.file)

/-- The configuration position of a template position. -/
def toConfigPos (p : Template.Pos) (source : Bytes) (start : Config.Pos) : Config.Pos :=
  (rangeOf p source start).start

theorem placeOn_eq_some {file : String} {line : Token} {offset : Int} {range : Range}
    (h : placeOn file line offset = some range) :
    0 ≤ offset ∧ offset ≤ line.bytes.length ∧ range = rangeWithin file line offset.toNat := by
  unfold placeOn at h
  split at h
  · next hb => cases h; exact ⟨hb.1, hb.2, rfl⟩
  · cases h

theorem place?_start_line {p : Template.Pos} {source : Bytes} {start : Config.Pos}
    {range : Range} (h : place? p source start = some range) : range.start.line = p.line := by
  simp only [place?] at h
  split at h
  · next line number hline =>
    rw [(placeOn_eq_some h).2.2]
    simpa [rangeWithin] using List.find?_some hline
  · cases h

end Interpolation.Expression
