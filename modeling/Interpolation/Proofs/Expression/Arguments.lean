/-
What the functions of a context are given.

* `callOwned_congr_passable` — a call does not tell functions apart that agree on
  passable arguments;
* `value_congr_of_functions` — nor does an expression.

Design notes: a call converts its arguments before it passes them on, and it does not pass
them on unless they are settled.  Whatever else a function may do is out of reach.
-/
import Interpolation.Proofs.Expression.Dependency
import Interpolation.Proofs.Evaluation.Names
import Interpolation.Proofs.Value.Conversion

namespace Interpolation

/-- Nothing in a value is unknown or a tuple, at any depth. -/
def Value.IsPassable (v : Value) : Prop :=
  v.isSettled = true ∧ v.isTupleFree = true

/-- Two functions take as many arguments, and do the same with arguments of an accepted
number that are passable. -/
structure Function.AgreesWith (f g : Function) : Prop where
  accepts : ∀ n, f.accepts n = g.accepts n
  call : ∀ arguments, f.accepts arguments.length = true →
    (∀ v ∈ arguments, v.IsPassable) → f.call arguments = g.call arguments

namespace Expression

open Config (Context)
open Evaluation

theorem isPassable_toConfig {v : Value} (h : v.isSettled = true) : v.toConfig.IsPassable :=
  ⟨(Value.isSettled_toConfig v).trans h, Value.isTupleFree_toConfig v⟩

variable {c c' : Context} {o : Origin} {p : Template.Pos} {name : String}

/-- **A call passes on nothing but passable values.** -/
theorem callOwned_congr_passable
    (h : Option.Rel Function.AgreesWith (c.lookupFunction name) (c'.lookupFunction name))
    (places : List Template.Pos) (arguments : List Value) :
    callOwned (.ofContext (some c)) o p name places arguments =
      callOwned (.ofContext (some c')) o p name places arguments := by
  cases hf : c.lookupFunction name with
  | none =>
    rw [hf] at h
    generalize hg : c'.lookupFunction name = g at h
    cases h
    exact callOwned_congr (hf.trans hg.symm) places arguments
  | some f =>
    rw [hf] at h
    generalize hg : c'.lookupFunction name = g at h
    cases h with
    | some hagree =>
      rw [callOwned_of_lookup rfl hf, callOwned_of_lookup rfl hg, ← hagree.accepts]
      -- only where both look at their arguments is there something to agree on
      cases haccepts : f.accepts arguments.length with
      | false => rfl
      | true =>
        cases hall : arguments.all Value.isSettled with
        | false => rfl
        | true =>
          have hpassable : ∀ v ∈ arguments.map Value.toConfig, v.IsPassable := by
            rw [List.forall_mem_map]
            exact fun v hv => isPassable_toConfig (List.all_eq_true.mp hall v hv)
          rw [hagree.call _ (by rw [List.length_map, haccepts]) hpassable]

/-- The value of a name depends on the variables of a context only. -/
theorem interpretName_congr_variables
    (h : ∀ name, c.lookupVariable name = c'.lookupVariable name) (name : String)
    (range : Config.Range) :
    (interpretName name range).value (some c) = (interpretName name range).value (some c') := by
  refine interpretName_congr fun t _ => ?_
  unfold Config.Traversal.value
  simp only [h]

/-- **No function of a context sees an unknown value or a tuple.**  In contexts with the
same variables, whose functions have the same names, take as many arguments and do the same
with settled arguments without tuples, an expression has the same value and diagnostics, or
the same fault. -/
theorem value_congr_of_functions {text file : String} {start : Config.Pos} {e : Expression}
    (h : parse text file start interpretName = .ok (.ok e)) {c c' : Context}
    (hvariables : ∀ name, c.lookupVariable name = c'.lookupVariable name)
    (hfunctions : ∀ name,
      Option.Rel Function.AgreesWith (c.lookupFunction name) (c'.lookupFunction name)) :
    e.value (some c) = e.value (some c') := by
  obtain ⟨n, _, hraw, rfl⟩ := parse_eq_ok h
  refine value_congr (eval_congr fun m hm => ?_)
  obtain ⟨haccess, hcall⟩ := owner_of_mem_subtrees_adopt hraw hm
  cases m with
  | access owner p name =>
    obtain rfl := haccess owner p name rfl
    exact lookupOwned_congr (interpretName_congr_variables hvariables _ _)
  | call owner p function arguments =>
    obtain rfl := hcall owner p function arguments rfl
    exact callOwned_congr_passable (hfunctions function) _
  | _ => trivial

/-- The expression `${count(pair)} of ${count(wanted)}`. -/
private def tally : Expression :=
  ofNode (.output ⟨"", 1, 1⟩
    [.call none ⟨"", 1, 3⟩ "count" [.access none ⟨"", 1, 9⟩ "pair"],
      .literal ⟨"", 1, 15⟩ (.text " of "),
      .call none ⟨"", 1, 21⟩ "count" [.access none ⟨"", 1, 27⟩ "wanted"]])
    ⟨Utf8.encode "${count(pair)} of ${count(wanted)}".toList, .initial, interpretName⟩

/-- The number of items of a list. -/
private def count : Function :=
  ⟨"count", some ⟨1, some 1⟩, fun
    | [.list items] => .ok (.int items.length)
    | _ => .error (.refused "a list is required" (some 0))⟩

/-- The number of items of a list, with another answer where a call should not come to. -/
private def watchedCount : Function :=
  ⟨"count", some ⟨1, some 1⟩, fun arguments =>
    if arguments.all fun v => v.isSettled && v.isTupleFree then count.call arguments
    else .ok (.text "seen")⟩

private theorem count_agreesWith : count.AgreesWith watchedCount where
  accepts _ := rfl
  call arguments _ h := by
    have hall : (arguments.all fun v => v.isSettled && v.isTupleFree) = true :=
      List.all_eq_true.mpr fun v hv => Bool.and_eq_true_iff.mpr (h v hv)
    exact (if_pos hall).symm

/-- A context with a pair and with a list of something that is not known yet. -/
private def counting (f : Function) : Context :=
  ⟨⟨[("pair", .tuple [.int 1, .int 2]), ("wanted", .list [.dynamic])], [("count", some f)]⟩, []⟩

private theorem counting_lookupFunction (f : Function) (name : String) :
    (counting f).lookupFunction name = if name = "count" then some f else none := by
  by_cases h : name = "count"
  · simp [counting, Context.lookupFunction, Context.levels, h]
  · simp [counting, Context.lookupFunction, Context.levels, List.lookup_cons,
      beq_false_of_ne h, h]

/-- A pair is counted as a list, and an unknown item keeps its list from being counted. -/
theorem value_tally_counting :
    tally.value (some (counting count)) = tally.value (some (counting watchedCount)) := by
  have hparse : parse "${count(pair)} of ${count(wanted)}" "" .initial interpretName =
      .ok (.ok tally) := by with_unfolding_all rfl
  refine value_congr_of_functions hparse (fun name => rfl) fun name => ?_
  rw [counting_lookupFunction, counting_lookupFunction]
  split
  · exact .some count_agreesWith
  · exact .none

end Expression

end Interpolation
