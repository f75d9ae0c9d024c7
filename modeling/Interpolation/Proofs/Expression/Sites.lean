/-
What reading a template finds can be placed in its source.

* `place?_of_startable` — an offset at which something may start has a range;
* `isPlaced_of_parse` — so has every node of a template and every error in one.

Design notes: an offset has no range behind the carriage return that ends a line, and at the
end of a text that has no line there.  Nothing starts at the first, and at the second there
is no character to start with.
-/
import Interpolation.Proofs.Expression.Placement
import Interpolation.Proofs.Template.Sites

namespace Interpolation.Expression

open Template (Node Startable ParseFailure)
open Utf8 (encode)

variable {Owner : Type}

/-- Where something may start in a text, the text has a line. -/
theorem not_offLines {before after : List Char} {c : Char}
    (h : c = '\n' → before.getLast? ≠ some '\r') : ¬ OffLines before (c :: after) := by
  rintro (⟨hnil, -⟩ | ⟨hlast, hnil | hhead⟩)
  · cases hnil
  · cases hnil
  · exact h (Option.some.inj hhead) hlast

/-- The range of an offset at which something may start begins as many lines and bytes into
the text as the offset is. -/
theorem place?_of_startable {text : String} {offset : Nat}
    (h : Startable text.toList offset) (file : String) (start : Config.Pos) :
    (place? ((toTemplatePos file start).locate text.toList offset) (encode text.toList) start).map
      (·.start) = some (placeAfter start (text.toList.take offset)) := by
  obtain ⟨before, c, after, hcs, rfl, hc⟩ := h
  have hafter := place?_after file start before (c :: after)
  rw [if_neg (not_offLines hc)] at hafter
  have htake : text.toList.take before.length = before := by
    rw [hcs, List.take_left]
  rw [Template.Pos.locate, htake, hcs]
  exact hafter

/-- A position is that of an offset into a text and has a range there. -/
def IsPlaced (text file : String) (start : Config.Pos) (p : Template.Pos) : Prop :=
  ∃ offset ≤ text.toList.length, p = (toTemplatePos file start).locate text.toList offset ∧
    (place? p (encode text.toList) start).isSome

theorem isPlaced_of_startable {text : String} {offset : Nat}
    (h : Startable text.toList offset) (file : String) (start : Config.Pos) :
    IsPlaced text file start ((toTemplatePos file start).locate text.toList offset) := by
  have hplace := place?_of_startable h file start
  obtain ⟨before, c, after, hcs, rfl, -⟩ := h
  refine ⟨before.length, by rw [hcs]; simp, rfl, ?_⟩
  obtain ⟨range, hrange, -⟩ := Option.map_eq_some_iff.mp hplace
  rw [hrange]
  rfl

/-- **Reading hands out no position that its own source cannot place.**  Every node of the
tree that is read starts at an offset that has a range, and if the text is wrong, so does the
error. -/
theorem isPlaced_of_parse {text : String} (h : text ≠ "") (file : String)
    (start : Config.Pos) :
    (∀ n : Node Owner, Template.parse text (toTemplatePos file start) = .ok n →
      ∀ m ∈ n.subtrees, IsPlaced text file start m.pos) ∧
    ∀ e, (Template.parse text (toTemplatePos file start) : Except ParseFailure (Node Owner)) =
      .error (.malformed e) → IsPlaced text file start e.pos := by
  have hsites : Template.Sited ((toTemplatePos file start).locate text.toList) text.toList
      (Template.parse text (toTemplatePos file start) : Except ParseFailure (Node Owner)) :=
    Template.parse_sits h _
  constructor
  · intro n hn m hm
    rw [hn] at hsites
    obtain ⟨offset, hpos, hstart, -⟩ := hsites m hm
    exact hpos ▸ isPlaced_of_startable hstart file start
  · intro e he
    rw [he] at hsites
    obtain ⟨offset, hpos, hstart⟩ := hsites
    exact hpos ▸ isPlaced_of_startable hstart file start

/-- A template of three lines: a carriage return stands before the first line feed, and a
name in a string literal on the last line. -/
def threeLines : String :=
  "\r\n$\x7bf(\"\n$\x7ba.b\x7d\")\x7d"

theorem parse_threeLines :
    (Template.parse threeLines (toTemplatePos "main.tf" ⟨3, 7, 40⟩) :
      Except ParseFailure (Node Owner)) =
      .ok (.output ⟨"main.tf", 3, 7⟩ [.literal ⟨"main.tf", 3, 7⟩ (.text "\r\n"),
        .call none ⟨"main.tf", 4, 3⟩ "f"
          [.output ⟨"main.tf", 4, 6⟩ [.literal ⟨"main.tf", 4, 6⟩ (.text "\n"),
            .access none ⟨"main.tf", 5, 3⟩ "a.b"]]]) := by
  with_unfolding_all rfl

/-- In three lines, and where an interpolation behind a line feed is never closed. -/
theorem isPlaced_of_parse_threeLines :
    (threeLines ≠ "" ∧ ∃ n : Node Empty,
      Template.parse threeLines (toTemplatePos "main.tf" ⟨3, 7, 40⟩) = .ok n ∧
      ∀ m ∈ n.subtrees, IsPlaced threeLines "main.tf" ⟨3, 7, 40⟩ m.pos) ∧
    ("\n$\x7b" ≠ "" ∧ ∃ e,
      (Template.parse "\n$\x7b" (toTemplatePos "main.tf" ⟨3, 7, 40⟩) :
        Except ParseFailure (Node Empty)) = .error (.malformed e) ∧
      IsPlaced "\n$\x7b" "main.tf" ⟨3, 7, 40⟩ e.pos) := by
  have hlines : threeLines ≠ "" := by decide
  have hunclosed : "\n$\x7b" ≠ "" := by decide
  have herror : (Template.parse "\n$\x7b" (toTemplatePos "main.tf" ⟨3, 7, 40⟩) :
      Except ParseFailure (Node Empty)) =
      .error (.malformed ⟨.unterminated, ⟨"main.tf", 4, 1⟩⟩) := by
    with_unfolding_all rfl
  refine ⟨⟨hlines, _, parse_threeLines, ?_⟩, hunclosed, _, herror, ?_⟩
  · exact (isPlaced_of_parse hlines "main.tf" ⟨3, 7, 40⟩).1 _ parse_threeLines
  · exact (isPlaced_of_parse hunclosed "main.tf" ⟨3, 7, 40⟩).2 _ herror

end Interpolation.Expression
