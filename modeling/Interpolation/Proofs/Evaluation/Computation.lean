/-
Evaluations as computations, whatever they evaluate.

* `Agree.bind` — evaluations that agree step by step agree;
* `Agree.gives_iff` — of two evaluations that agree, one gives a value exactly when
  the other does.

Design notes: an evaluation that gathers no warnings is one of two things, a value
(`pure`) or a failure (`Eval.fail`), whatever has been gathered before it.  Two
such evaluations *agree* when they give the same value or both fail; what they
fail with is left open.  The property that `Agree` carries along is the invariant
of the values that pass from step to step.
-/
import Interpolation.Evaluation.Names
import Interpolation.Proofs.Outcome

namespace Interpolation.Evaluation

open Config (Diagnostics)

namespace Eval

variable {α β : Type}

@[simp] theorem ofExcept_ok (a : α) : ofExcept (.ok a) = pure a := rfl

@[simp] theorem fail_bind (e : Failure) (f : α → Eval β) : (fail e >>= f) = fail e := rfl

@[simp] theorem warn_nil : warn [] = pure () := by
  funext ws
  show Except.ok ((), ws ++ []) = Except.ok ((), ws)
  rw [List.append_nil]

theorem bind_apply (m : Eval α) (f : α → Eval β) (ws : Diagnostics) :
    (m >>= f) ws = (m ws).bind fun r => f r.1 r.2 := rfl

/-- Two evaluations that gather no warnings give the same value, which has a
property, or they both fail. -/
inductive Agree (P : α → Prop) : Eval α → Eval α → Prop
  | give {a : α} (h : P a) : Agree P (pure a) (pure a)
  | fail (e e' : Failure) : Agree P (Eval.fail e) (Eval.fail e')

theorem Agree.bind {P : α → Prop} {Q : β → Prop} {m m' : Eval α} {f f' : α → Eval β}
    (h : Agree P m m') (hf : ∀ a, P a → Agree Q (f a) (f' a)) :
    Agree Q (m >>= f) (m' >>= f') := by
  cases h with
  | give ha => simpa using hf _ ha
  | fail e e' => simpa using Agree.fail e e'

/-- A step that always fails agrees with failing before it. -/
theorem Agree.bind_fail {P : α → Prop} {Q : β → Prop} {m m' : Eval α} {f : α → Eval β}
    (h : Agree P m m') (hf : ∀ a, ∃ e, f a = Eval.fail e) (e' : Failure) :
    Agree Q (m >>= f) (Eval.fail e') := by
  cases h with
  | @give a ha =>
    obtain ⟨e, he⟩ := hf a
    rw [pure_bind, he]
    exact .fail e e'
  | fail e _ => exact .fail e e'

theorem Agree.ofExcept {P : α → Prop} {r : Except Failure α} (h : ∀ a, r = .ok a → P a) :
    Agree P (ofExcept r) (ofExcept r) := by
  cases r with
  | error e => exact .fail e e
  | ok a => exact .give (h a rfl)

/-- What agreeing evaluations give is the same, and has the property. -/
theorem Agree.gives_iff {P : α → Prop} {m m' : Eval α} (h : Agree P m m') (ws : Diagnostics)
    (a : α) : m ws = .ok (a, ws) ↔ ∃ ws', m' ws = .ok (a, ws') := by
  cases h with
  | give ha =>
    constructor
    · intro hm
      exact ⟨ws, hm⟩
    · rintro ⟨ws', hm⟩
      cases hm
      rfl
  | fail e e' =>
    constructor
    · intro hm
      cases hm
    · rintro ⟨ws', hm⟩
      cases hm

/-- Agreeing evaluations gather no warnings. -/
theorem Agree.warnings {P : α → Prop} {m m' : Eval α} (h : Agree P m m') {ws ws' : Diagnostics}
    {a : α} (hm : m ws = .ok (a, ws')) : ws' = ws := by
  cases h with
  | give ha =>
    cases hm
    rfl
  | fail e e' => cases hm

end Eval

end Interpolation.Evaluation
