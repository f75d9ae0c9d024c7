/-
Origins: what an expression knows about the text it comes from.

* `nameRange_start` — the range of a name starts where its node does.

Design notes: an origin owns the variable accesses and calls of its tree.  It
says where they are written and what their names mean.
-/
import Interpolation.Expression.Placement
import Interpolation.Expression.Reference

namespace Interpolation.Expression

open Config (Range)

/-- The text of an expression, where it begins, and how names are interpreted. -/
structure Origin where
  source : Bytes
  start : Config.Pos
  interpret : String → Range → Lookup

namespace Origin

/-- Where the node at a position is written. -/
def rangeAt (o : Origin) (p : Template.Pos) : Range :=
  rangeOf p o.source o.start

/-- Where a name that starts at a position is written; if the position is not in
the text, neither is the name. -/
def nameRange (o : Origin) (p : Template.Pos) (name : String) : Range :=
  let range := o.rangeAt p
  if range.start = .zero then range
  else { range with stop := range.start.advance (Utf8.encode name.toList) }

/-- The interpretation of a name that starts at a position. -/
def lookup (o : Origin) (p : Template.Pos) (name : String) : Lookup :=
  o.interpret name (o.nameRange p name)

theorem nameRange_start (o : Origin) (p : Template.Pos) (name : String) :
    (o.nameRange p name).start = (o.rangeAt p).start := by
  simp only [nameRange]
  split <;> rfl

end Origin

end Interpolation.Expression
