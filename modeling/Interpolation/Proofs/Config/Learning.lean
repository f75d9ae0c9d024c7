/-
Contexts about whose variables more is known.

* `RefinedBy.lookupVariable`, `RefinedBy.lookupFunction` — look-ups in a context that
  refines another find refinements, and the same functions;
* `value_learns` — a path leads to a refinement of where it led before, unless that
  was unknown.
-/
import Interpolation.Proofs.Config.Traversal
import Interpolation.Proofs.Value.Refinement

namespace Interpolation.Config

open Value (Refines)

/-- The second level binds the same names, to the same functions and to values that
refine those of the first. -/
structure Level.RefinedBy (l l' : Level) : Prop where
  values : ∀ name,
    Option.Rel (Refines .dynamic) (l.variables.lookup name) (l'.variables.lookup name)
  functions : ∀ name, l.functions.lookup name = l'.functions.lookup name

/-- The second context refines the first level by level. -/
def Context.RefinedBy (c c' : Context) : Prop :=
  List.Forall₂ Level.RefinedBy c.levels c'.levels

/-- Related lists have related first finds. -/
theorem findSome?_rel {α β : Type} {P : α → α → Prop} {R : β → β → Prop} {f : α → Option β}
    (hf : ∀ a a', P a a' → Option.Rel R (f a) (f a')) {as as' : List α}
    (h : List.Forall₂ P as as') : Option.Rel R (as.findSome? f) (as'.findSome? f) := by
  induction h with
  | nil => exact .none
  | @cons a a' as as' ha _ ih =>
    rw [List.findSome?_cons, List.findSome?_cons]
    have hfirst := hf a a' ha
    generalize f a = b, f a' = b' at hfirst
    cases hfirst with
    | none => exact ih
    | some hb => exact .some hb

namespace Context.RefinedBy

variable {c c' : Context}

theorem lookupVariable (h : c.RefinedBy c') (name : String) :
    Option.Rel (Refines .dynamic) (c.lookupVariable name) (c'.lookupVariable name) :=
  findSome?_rel (fun _ _ hlevel => hlevel.values name) h

theorem lookupFunction (h : c.RefinedBy c') (name : String) :
    c.lookupFunction name = c'.lookupFunction name := by
  have hrel : Option.Rel (· = ·) (c.lookupFunction name) (c'.lookupFunction name) := by
    refine findSome?_rel (fun l l' hlevel => ?_) h
    rw [hlevel.functions name]
    cases (l'.functions.lookup name).join with
    | none => exact .none
    | some f => exact .some rfl
  generalize c.lookupFunction name = f, c'.lookupFunction name = f' at hrel
  cases hrel with
  | none => rfl
  | some hf => rw [hf]

end Context.RefinedBy

/-! ### Paths -/

variable {v v' w : Value}

/-- Whatever is looked up in a value that is not known yet is not known either. -/
theorem Traversal.found_apply_dynamic {steps : List Step}
    (h : found (apply steps .dynamic) = some w) : w = .dynamic := by
  induction steps with
  | nil =>
    cases h
    rfl
  | cons step rest ih =>
    rw [found_apply_cons] at h
    obtain ⟨u, hu, h⟩ := Option.bind_eq_some_iff.mp h
    have hdynamic : u = .dynamic := by
      cases step with
      | root name range => cases hu
      | _ =>
        simp only [Step.apply, index_dynamic, found_ofValue, Option.some.injEq] at hu
        exact hu.symm
    subst hdynamic
    exact ih h

theorem index_learns {key : Value} {subject : Option Range} (hv : Refines .dynamic v v')
    (h : found (index v key subject) = some w) :
    w = .dynamic ∨ ∃ w', found (index v' key subject) = some w' ∧ Refines .dynamic w w' := by
  rcases found_index_cases h with ⟨_, hw⟩ | ⟨items, i, hitems, hi, hw⟩ | ⟨entries, s, rfl, rfl, hw⟩
  · exact .inl hw
  · have hkey : key ≠ .dynamic := by
      rintro rfl
      cases hi
    obtain ⟨items', hitems', hall⟩ := hv.items_inv (.inr rfl) (Value.items?_eq_some.mpr hitems)
    unfold item? at hw
    split at hw
    · next hpos =>
      obtain ⟨w', hw', hrefines⟩ := Refines.getElem? hall hw
      have hitem : item? items' i = some w' := by rw [item?, if_pos hpos, hw']
      have hfound : found (indexItems items' key subject) = some w' :=
        found_indexItems_iff.mpr ⟨i, hi, hitem⟩
      rcases Value.items?_eq_some.mp hitems' with rfl | rfl
      · exact .inr ⟨w', by rw [index_list _ hkey, hfound], hrefines⟩
      · exact .inr ⟨w', by rw [index_tuple _ hkey, hfound], hrefines⟩
    · cases hw
  · obtain ⟨entries', rfl, hall⟩ := hv.entries_inv (.inr rfl)
    obtain ⟨w', hw', hrefines⟩ := Refines.find? hall hw
    exact .inr ⟨w', found_indexEntries_iff.mpr ⟨s, rfl, hw'⟩, hrefines⟩

theorem Step.apply_learns {step : Step} (hv : Refines .dynamic v v')
    (h : found (step.apply v) = some w) :
    w = .dynamic ∨ ∃ w', found (step.apply v') = some w' ∧ Refines .dynamic w w' := by
  cases step with
  | root name range => cases h
  | _ => exact index_learns hv h

namespace Traversal

theorem apply_learns {steps : List Step} (hv : Refines .dynamic v v')
    (h : found (apply steps v) = some w) :
    w = .dynamic ∨ ∃ w', found (apply steps v') = some w' ∧ Refines .dynamic w w' := by
  induction steps generalizing v v' with
  | nil =>
    cases h
    exact .inr ⟨v', rfl, hv⟩
  | cons step rest ih =>
    rw [found_apply_cons] at h ⊢
    obtain ⟨u, hu, h⟩ := Option.bind_eq_some_iff.mp h
    rcases Step.apply_learns hv hu with rfl | ⟨u', hu', hrefines⟩
    · exact .inl (found_apply_dynamic h)
    · rw [hu']
      exact ih hrefines h

/-- **A path leads to a refinement of where it led before**, unless that was unknown. -/
theorem value_learns {c c' : Context} (hc : c.RefinedBy c') {t : Traversal}
    (h : found (t.value (some c)) = some w) :
    w = .dynamic ∨ ∃ w', found (t.value (some c')) = some w' ∧ Refines .dynamic w w' := by
  obtain ⟨first, rest⟩ := t
  cases first with
  | root name range =>
    have hroot := hc.lookupVariable name
    simp only [value] at h ⊢
    generalize c.lookupVariable name = u, c'.lookupVariable name = u' at h hroot ⊢
    cases hroot with
    | none => cases h
    | some hv => exact apply_learns hv h
  | _ => cases h

end Traversal

end Interpolation.Config
