/-
What an expression depends on.

* `parse_eq_ok` — an expression that was read from a text is a raw tree in the hands
  of its origin;
* `value_congr_of_variables` — its value depends on its functions and on the paths it
  reports, and on nothing else of the context.
-/
import Interpolation.Proofs.Evaluation.Locality
import Interpolation.Proofs.Expression.Reference
import Interpolation.Proofs.Expression.Value
import Interpolation.Proofs.Template.Adoption

namespace Interpolation.Expression

open Config (Context Range)
open Evaluation (eval_congr lookupOwned_congr callOwned_congr)

/-- Reading an expression is reading its tree, which its origin then adopts. -/
theorem parse_eq_ok {text file : String} {start : Config.Pos}
    {interpret : String → Range → Lookup} {e : Expression}
    (h : parse text file start interpret = .ok (.ok e)) :
    ∃ n, Template.parse text (toTemplatePos file start) = .ok n ∧ n.Raw ∧
      e = ofNode n ⟨Utf8.encode text.toList, start, interpret⟩ := by
  unfold parse at h
  dsimp only at h
  split at h
  · next n hn =>
    cases h
    exact ⟨n, hn, Template.parse_raw hn, rfl⟩
  · cases h
  · cases h

/-- **The paths of an expression are all it depends on.** In contexts that have the
same functions and in which every path of the expression leads to the same, the
expression has the same value and diagnostics, or the same fault. -/
theorem value_congr_of_variables {text file : String} {start : Config.Pos} {e : Expression}
    (h : parse text file start interpretName = .ok (.ok e)) {c c' : Context}
    (hfunctions : ∀ name, c.lookupFunction name = c'.lookupFunction name)
    (hvariables : ∀ t ∈ e.variables, t.value (some c) = t.value (some c')) :
    e.value (some c) = e.value (some c') := by
  obtain ⟨n, _, hraw, rfl⟩ := parse_eq_ok h
  refine value_congr (eval_congr fun m hm => ?_)
  obtain ⟨haccess, hcall⟩ := owner_of_mem_subtrees_adopt hraw hm
  cases m with
  | access owner p name =>
    obtain rfl := haccess owner p name rfl
    refine lookupOwned_congr (interpretName_congr fun t ht => hvariables t ?_)
    exact List.mem_flatMap.mpr ⟨_, mem_accesses.mpr hm, ht⟩
  | call owner p function arguments =>
    obtain rfl := hcall owner p function arguments rfl
    exact callOwned_congr (hfunctions function) _
  | _ => trivial

/-- The expression `${a.b + 1}`. -/
private def successor : Expression :=
  ofNode (.output ⟨"", 1, 1⟩ [.binary ⟨"", 1, 3⟩ .add (.access none ⟨"", 1, 3⟩ "a.b")
    (.literal ⟨"", 1, 9⟩ (.int 1))]) ⟨Utf8.encode "${a.b + 1}".toList, .initial, interpretName⟩

/-- The path of `a.b` in `${a.b + 1}`. -/
private def successorPath : Config.Traversal :=
  ⟨.root "a" ⟨"", ⟨1, 3, 2⟩, ⟨1, 4, 3⟩⟩, [.index (.text "b") ⟨"", ⟨1, 5, 4⟩, ⟨1, 6, 5⟩⟩]⟩

/-- A context in which `a.b` is a number and `a.c` and `d` have given values. -/
private def around (c d : Value) : Context :=
  ⟨⟨[("d", d), ("a", .map [("b", .int 6), ("c", c)])], []⟩, []⟩

/-- What stands beside `a.b` does not matter to `${a.b + 1}`. -/
theorem value_successor_around :
    successor.value (some (around .null .dynamic)) =
      successor.value (some (around (.text "") (.bool true))) := by
  have hparse : parse "${a.b + 1}" "" .initial interpretName = .ok (.ok successor) := by
    with_unfolding_all rfl
  have hpath : successor.variables = [successorPath] := by with_unfolding_all rfl
  refine value_congr_of_variables hparse (fun name => rfl) fun t ht => ?_
  rw [hpath] at ht
  obtain rfl := List.mem_singleton.mp ht
  rfl

end Interpolation.Expression
