/-
Evaluations that learn more never change their minds.

* `Learns.bind` — steps that learn make a computation that learns;
* `applyBinary_learns`, `applyIndex_learns`, … — operations on values about which more
  is known have results about which more is known, unless they were unknown.

Design notes: of two evaluations the second *learns* from the first when it goes on
from what the first has found out: where the first gives a value that is decided, the
second gives a refinement of it.  An evaluation that fails or waits for an unknown
value promises nothing.  Every step has to be strict for that: given what is not
known, it may fail or wait, but may not decide (`Undecided`).  Equality is the one
operation that is not, since it looks inside values that are partly unknown.
-/
import Interpolation.Proofs.Evaluation.Computation
import Interpolation.Proofs.Evaluation.Operation
import Interpolation.Proofs.Value.Refinement

namespace Interpolation.Evaluation

open Config (Diagnostics)
open Value (Refines)
open Template (UnaryOp BinaryOp)

namespace Eval

variable {α β : Type}

/-- An evaluation that fails or waits: what it gives, if it gives anything, is not
decided. -/
inductive Undecided (U : α → Prop) : Eval α → Prop
  | fail (e : Failure) : Undecided U (Eval.fail e)
  | wait {a : α} (h : U a) : Undecided U (pure a)

/-- The second evaluation goes on from what the first has found out. -/
inductive Learns (U : α → Prop) (R : α → α → Prop) : Eval α → Eval α → Prop
  | undecided {m : Eval α} (h : Undecided U m) (m' : Eval α) : Learns U R m m'
  | give {a a' : α} (h : R a a') : Learns U R (pure a) (pure a')

variable {U : α → Prop} {R : α → α → Prop} {V : β → Prop} {S : β → β → Prop}
  {m m' : Eval α} {f f' : α → Eval β}

theorem Learns.bind (h : Learns U R m m') (hwait : ∀ a, U a → Undecided V (f a))
    (hgive : ∀ a a', R a a' → Learns V S (f a) (f' a')) : Learns V S (m >>= f) (m' >>= f') := by
  cases h with
  | undecided hm =>
    cases hm with
    | fail e => exact .undecided (.fail e) _
    | @wait a ha =>
      rw [pure_bind]
      exact .undecided (hwait a ha) _
  | @give a a' ha =>
    rw [pure_bind, pure_bind]
    exact hgive a a' ha

/-- Before a step that decides nothing, nothing has to be known. -/
theorem Learns.bind_undecided (h : Learns U R m m') (hf : ∀ a, Undecided V (f a)) :
    Undecided V (m >>= f) := by
  cases h with
  | undecided hm =>
    cases hm with
    | fail e => exact .fail e
    | @wait a ha =>
      rw [pure_bind]
      exact hf a
  | @give a a' ha =>
    rw [pure_bind]
    exact hf a

theorem Undecided.ofExcept {r : Except Failure α} (h : ∀ a, r = .ok a → U a) :
    Undecided U (ofExcept r) := by
  cases r with
  | error e => exact .fail e
  | ok a => exact .wait (h a rfl)

theorem Learns.ofExcept {r r' : Except Failure α}
    (h : ∀ a, r = .ok a → U a ∨ ∃ a', r' = .ok a' ∧ R a a') :
    Learns U R (ofExcept r) (ofExcept r') := by
  cases r with
  | error e => exact .undecided (.fail e) _
  | ok a =>
    rcases h a rfl with ha | ⟨a', rfl, ha⟩
    · exact .undecided (.wait ha) _
    · exact .give ha

/-- Where something is decided, more is known in the second evaluation, which gathers
as many warnings. -/
theorem Learns.gives (h : Learns U R m m') {a : α} {ws ws' : Diagnostics}
    (hm : m ws = .ok (a, ws')) (ha : ¬U a) : ∃ a', m' ws = .ok (a', ws') ∧ R a a' := by
  cases h with
  | undecided hm' =>
    cases hm' with
    | fail e => cases hm
    | wait hU =>
      cases hm
      exact absurd hU ha
  | @give _ a' hR =>
    cases hm
    exact ⟨a', rfl, hR⟩

end Eval

/-! ### Operations -/

variable {v v' w w' u : Value}

theorem applyUnary_learns {op : UnaryOp} (hv : Refines .unknown v v')
    (h : applyUnary op v = .ok u) :
    u = .unknown ∨ ∃ u', applyUnary op v' = .ok u' ∧ Refines .unknown u u' := by
  rcases applyUnary_cases h with ⟨_, hu⟩ | ⟨hatom, _⟩
  · exact .inl hu
  · obtain rfl := hv.eq_of_isAtom (.inl rfl) hatom
    exact .inr ⟨u, h, .refl u⟩

theorem applyBinary_learns {op : BinaryOp} (hop : isEquality op = false)
    (hv : Refines .unknown v v') (hw : Refines .unknown w w') (h : applyBinary op v w = .ok u) :
    u = .unknown ∨ ∃ u', applyBinary op v' w' = .ok u' ∧ Refines .unknown u u' := by
  rcases applyBinary_cases h with ⟨_, hu⟩ | ⟨hequality | ⟨hatom, hatom'⟩, _⟩
  · exact .inl hu
  · rw [hop] at hequality
    cases hequality
  · obtain rfl := hv.eq_of_isAtom (.inl rfl) hatom
    obtain rfl := hw.eq_of_isAtom (.inl rfl) hatom'
    exact .inr ⟨u, h, .refl u⟩

theorem firstDecides_learns {op : BinaryOp} {decided : Option Value} (hv : Refines .unknown v v')
    (h : firstDecides op v = .ok decided) :
    decided = some .unknown ∨
      ∃ decided', firstDecides op v' = .ok decided' ∧ decided = decided' := by
  rcases firstDecides_cases h with ⟨_, hd⟩ | ⟨hatom, _⟩
  · exact .inl hd
  · obtain rfl := hv.eq_of_isAtom (.inl rfl) hatom
    exact .inr ⟨decided, h, rfl⟩

theorem secondDecides_learns (hv : Refines .unknown v v') (h : secondDecides v = .ok u) :
    u = .unknown ∨ ∃ u', secondDecides v' = .ok u' ∧ Refines .unknown u u' := by
  rcases secondDecides_cases h with ⟨_, hu⟩ | ⟨hatom, _⟩
  · exact .inl hu
  · obtain rfl := hv.eq_of_isAtom (.inl rfl) hatom
    exact .inr ⟨u, h, .refl u⟩

theorem chooses_learns {choice : Option Bool} (hv : Refines .unknown v v')
    (h : chooses v = .ok choice) :
    choice = none ∨ ∃ choice', chooses v' = .ok choice' ∧ choice = choice' := by
  rcases chooses_cases h with ⟨_, hd⟩ | ⟨hatom, _⟩
  · exact .inl hd
  · obtain rfl := hv.eq_of_isAtom (.inl rfl) hatom
    exact .inr ⟨choice, h, rfl⟩

theorem joinParts_learns {values values' : List Value}
    (hvalues : List.Forall₂ (Refines .unknown) values values') (h : joinParts values = .ok u) :
    u = .unknown ∨ ∃ u', joinParts values' = .ok u' ∧ Refines .unknown u u' := by
  rcases joinParts_cases h with rfl | ⟨_, hu⟩ | ⟨hatoms, _⟩
  · cases hvalues with
    | @cons _ u' _ rest hu hrest =>
      cases hrest
      exact .inr ⟨u', rfl, hu⟩
  · exact .inl hu
  · obtain rfl := Refines.eq_of_isAtom_all (.inl rfl) hvalues hatoms
    exact .inr ⟨u, h, .refl u⟩

theorem joinParts_unknown {values : List Value} (hvalues : .unknown ∈ values)
    (h : joinParts values = .ok u) : u = .unknown := by
  rcases joinParts_cases h with rfl | ⟨_, hu⟩ | ⟨hatoms, _⟩
  · exact (List.mem_singleton.mp hvalues).symm
  · exact hu
  · cases hatoms _ hvalues

theorem applyIndex_unknown_right (target : Value) : applyIndex target .unknown = .ok .unknown := by
  simp [applyIndex, Value.isUnknown]

theorem applyIndex_items {target key : Value} {items : List Value}
    (htarget : target.items? = some items) (hkey : key ≠ .unknown) :
    applyIndex target key = elementOf items key := by
  have hunknown : key.isUnknown = false := by
    rwa [Bool.eq_false_iff, ne_eq, Value.isUnknown_iff]
  unfold applyIndex
  rcases Value.items?_eq_some.mp htarget with rfl | rfl
  · rw [hunknown]
    rfl
  · rw [hunknown]
    rfl

theorem applyIndex_learns {target target' key key' : Value}
    (htarget : Refines .unknown target target') (hkey : Refines .unknown key key')
    (h : applyIndex target key = .ok u) :
    u = .unknown ∨ ∃ u', applyIndex target' key' = .ok u' ∧ Refines .unknown u u' := by
  rcases applyIndex_cases h with ⟨_, hu⟩ | ⟨items, hitems, helement⟩ | ⟨entries, rfl, hentry⟩
  · exact .inl hu
  · obtain ⟨n, i, hn, hi, hu⟩ := elementOf_eq_ok.mp helement
    have hatom := Value.isAtom_of_toNumber hn
    obtain rfl := hkey.eq_of_isAtom (.inl rfl) hatom
    obtain ⟨items', hitems', hall⟩ := htarget.items_inv (.inl rfl) (Value.items?_eq_some.mpr hitems)
    obtain ⟨u', hu', hrefines⟩ := Refines.getElem? hall hu
    rw [hall.length_eq] at hi
    rw [applyIndex_items hitems' (by rintro rfl; cases hatom)]
    exact .inr ⟨u', elementOf_eq_ok.mpr ⟨n, i, hn, hi, hu'⟩, hrefines⟩
  · obtain ⟨s, rfl, hu⟩ := entryOf_eq_ok.mp hentry
    obtain rfl := hkey.eq_of_isAtom (.inl rfl) rfl
    obtain ⟨entries', rfl, hall⟩ := htarget.entries_inv (.inl rfl)
    obtain ⟨u', hu', hrefines⟩ := Refines.find? hall hu
    exact .inr ⟨u', entryOf_eq_ok.mpr ⟨s, rfl, hu'⟩, hrefines⟩

end Interpolation.Evaluation
