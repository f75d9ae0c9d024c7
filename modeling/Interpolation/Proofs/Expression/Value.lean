/-
When an expression has a value.

* `ExplainedIn.callExplainsIn` — under the usual interpretation of names the only
  explanations are those of functions;
* `value_of_eval` — an expression has the value of its tree, with the same warnings;
* `value_of_explained` — where the evaluation of its tree ends in an explanation, it has no
  value and the explanation is all that is reported;
* `value_eq_ok_iff` — unless that is so, it has a value without an error exactly when its
  tree does;
* `value_congr` — contexts in which its tree has the same meaning are the same to it.
-/
import Interpolation.Proofs.Evaluation.Explanation
import Interpolation.Proofs.Evaluation.Machine
import Interpolation.Proofs.Expression.Reference
import Interpolation.Proofs.Template.Adoption

namespace Interpolation

namespace Evaluation

open Config (Diagnostics)
open Expression (Origin accesses interpretName interpretName_ne_error mem_accesses
  owner_of_mem_subtrees_adopt)
open Template (Node)

/-- The names of a tree are interpreted in the usual way, whoever owns them. -/
def IsUsual (n : Node Origin) : Prop :=
  ∀ o p name, (o, p, name) ∈ accesses n → o.interpret = interpretName

theorem isUsual_adopt {n : Node Origin} (hn : n.Raw) {o : Origin}
    (ho : o.interpret = interpretName) : IsUsual (n.adopt o) := by
  intro owner p name hmem
  cases (owner_of_mem_subtrees_adopt hn (mem_accesses.mp hmem)).1 _ p name rfl
  exact ho

theorem ExplainedIn.callExplainsIn {scope : Scope} {n : Node Origin} {ds : Diagnostics}
    (hn : IsUsual n) (h : ExplainedIn scope n ds) : CallExplainsIn scope n ds := by
  obtain ⟨m, hm, hcall | hlookup⟩ := h
  · exact ⟨m, hm, hcall⟩
  · cases hlookup with
    | owned hcontext hvalue =>
      rw [Origin.lookup, hn _ _ _ (mem_accesses.mpr hm.mem_subtrees)] at hvalue
      exact absurd hvalue (interpretName_ne_error _ _ _ _)

/-- In the scope of a context it is the functions of the context that explain. -/
theorem CallExplainsIn.exists_function {c : Config.Context} {n : Node Origin} {ds : Diagnostics}
    (h : CallExplainsIn (.ofContext (some c)) n ds) :
    ∃ name f arguments, c.lookupFunction name = some f ∧
      f.accepts arguments.length = true ∧ f.call arguments = .error (.explained ds) := by
  obtain ⟨m, _, hcall⟩ := h
  cases hcall with
  | free hf => cases hf
  | owned hcontext hf _ haccepts _ hcall =>
    cases hcontext
    exact ⟨_, _, _, hf, by rwa [List.length_map], hcall⟩

end Evaluation

namespace Expression

open Config (Context Diagnostics)
open Evaluation (ExplainedIn FailsIn eval eval_failsWith evaluate_eq_eval failsIn_explained_iff)

/-- The problem behind a reported failure has an error among its diagnostics. -/
theorem hasErrors_of_ofFailure {failure : Failure} (h : failure.IsReported) {problem : Problem}
    (hproblem : Problem.ofFailure failure = .ok problem) (source : Bytes) (start : Config.Pos) :
    Config.hasErrors (problem.diagnostics source start) = true := by
  cases failure with
  | error e =>
    cases e with
    | explained ds => exact h.elim
    | _ =>
      cases hproblem
      rfl
  | diagnosed ds =>
    cases hproblem
    exact h
  | fault f => cases hproblem

theorem value_of_eval {e : Expression} {context : Option Context} {v : Value} {ds : Diagnostics}
    (h : eval (.ofContext context) e.root [] = .ok (v, ds)) :
    e.value context = .ok ⟨v.toConfig, ds⟩ := by
  rw [value, evaluate_eq_eval, h]

/-- An expression that fails has no value, and what is reported is the problem. -/
theorem value_of_failsIn {e : Expression} {context : Option Context} {failure : Failure}
    (h : FailsIn (.ofContext context) e.root failure) :
    e.value context = (Problem.ofFailure failure).map fun problem =>
      ⟨.dynamic, problem.diagnostics e.origin.source e.origin.start⟩ := by
  rw [value, evaluate_eq_eval, (eval_failsWith _ _ [] failure).mpr h]
  dsimp only
  cases Problem.ofFailure failure <;> rfl

/-- **An explanation is passed on as it is.** -/
theorem value_of_explained {e : Expression} {context : Option Context} {ds : Diagnostics}
    (h : ExplainedIn (.ofContext context) e.root ds) : e.value context = .ok ⟨.dynamic, ds⟩ :=
  value_of_failsIn (failsIn_explained_iff.mpr h)

/-- **An expression has a value without an error exactly when its tree does**, unless the
evaluation of its tree ends in an explanation that holds no error. -/
theorem value_eq_ok_iff {e : Expression} {context : Option Context} {w : Value}
    {ds : Diagnostics} (hds : Config.hasErrors ds = false)
    (hvalue : w = .dynamic → ¬ExplainedIn (.ofContext context) e.root ds) :
    e.value context = .ok ⟨w, ds⟩ ↔
      ∃ v, eval (.ofContext context) e.root [] = .ok (v, ds) ∧ v.toConfig = w := by
  constructor
  · intro h
    cases hr : eval (.ofContext context) e.root [] with
    | ok r =>
      rw [value_of_eval hr] at h
      cases h
      exact ⟨_, rfl, rfl⟩
    | error failure =>
      have hfails := (eval_failsWith _ _ [] failure).mp hr
      rw [value_of_failsIn hfails] at h
      rcases hfails.isReported_or with hreported | ⟨ds', rfl, hexplained⟩
      · cases hproblem : Problem.ofFailure failure with
        | error f => rw [hproblem] at h; cases h
        | ok problem =>
          rw [hproblem] at h
          cases h
          rw [hasErrors_of_ofFailure hreported hproblem] at hds
          cases hds
      · cases h
        exact absurd hexplained (hvalue rfl)
  · rintro ⟨v, h, rfl⟩
    exact value_of_eval h

/-- The value of an expression depends on a context as the value of its tree does. -/
theorem value_congr {e : Expression} {context context' : Option Context}
    (h : eval (.ofContext context) e.root = eval (.ofContext context') e.root) :
    e.value context = e.value context' := by
  unfold value
  rw [evaluate_eq_eval, evaluate_eq_eval, h]

end Expression

end Interpolation
