/-
Names that are looked up in a context.

* `lookupOwned_of_found`, `lookupOwned_of_not_found` — an access gives what its name
  refers to, as templates see it, or fails;
* `callOwned_of_lookup`, `callOwned_of_no_function` — what a call comes to once its
  function has been looked up.

Design notes: these are the two places where an evaluation consults a context.  The
access is stated for interpretations that report nothing with a value, as the usual
one does; others may add warnings.
-/
import Interpolation.Proofs.Config.Traversal
import Interpolation.Proofs.Evaluation.Computation
import Interpolation.Proofs.Value.Settled

namespace Interpolation.Evaluation

open Config (Context Terse found)
open Expression (Origin)

variable {c : Context} {o : Origin} {p : Template.Pos} {name : String}

theorem lookupOwned_of_found {v : Value} (hterse : Terse ((o.lookup p name).value (some c)))
    (h : found ((o.lookup p name).value (some c)) = some v) :
    lookupOwned (.ofContext (some c)) o p name = pure v.toTemplate := by
  have hvalue := hterse.eq_ofValue h
  unfold lookupOwned contextOf
  simp only [Scope.ofContext, Eval.ofExcept_ok, pure_bind, hvalue, Config.Result.ofValue,
    Config.hasErrors_nil, Eval.warn_nil]
  rfl

theorem lookupOwned_of_not_found (h : found ((o.lookup p name).value (some c)) = none) :
    ∃ e, lookupOwned (.ofContext (some c)) o p name = Eval.fail e := by
  unfold lookupOwned contextOf
  simp only [Scope.ofContext, Eval.ofExcept_ok, pure_bind]
  cases hr : (o.lookup p name).value (some c) with
  | error f => exact ⟨_, rfl⟩
  | ok r =>
    rw [hr, found] at h
    by_cases hd : Config.hasErrors r.diagnostics = true
    · simp only [hd, if_true]
      exact ⟨_, rfl⟩
    · simp [hd] at h

variable {scope : Scope} {places : List Template.Pos} {arguments : List Value}

theorem callOwned_of_no_function (hscope : contextOf scope = .ok (some c))
    (h : c.lookupFunction name = none) :
    callOwned scope o p name places arguments =
      .error (failedCall "Call to unknown function"
        ("There is no function named " ++ Quoted.quote name ++ ".") (o.rangeAt p)) := by
  unfold callOwned
  simp only [hscope, bind, Except.bind, h]
  rfl

/-- A call passes its arguments to the function if it takes that many and they are
all known. -/
theorem callOwned_of_lookup {f : Function} (hscope : contextOf scope = .ok (some c))
    (h : c.lookupFunction name = some f) :
    callOwned scope o p name places arguments =
      if f.accepts arguments.length = false then
        .error (failedCall "Wrong number of arguments"
          ("Function " ++ Quoted.quote name ++ " does not accept " ++
            Digits.text arguments.length ++ " arguments.") (o.rangeAt p))
      else if arguments.all Value.isSettled = false then .ok .unknown
      else
        match f.call (arguments.map Value.toConfig) with
        | .ok v => .ok v.toTemplate
        | .error (.refused message argument) =>
          .error (refusal o p name places message argument)
        | .error (.failed message) => .error (.error (.reported message))
        | .error (.explained diagnostics) => .error (.error (.explained diagnostics))
        | .error (.broken message) => .error (.fault (.broken message)) := by
  unfold callOwned
  simp only [hscope, bind, Except.bind, h, List.length_map, Value.all_isKnown_map_toConfig]
  cases f.accepts arguments.length <;> cases arguments.all Value.isSettled <;> rfl

end Interpolation.Evaluation
