/-
Values about which more is known.

* `Refines.eq_of_isAtom`, `Refines.items`, `Refines.entries` — what refines an atom, a
  collection of items, a map;
* `Refines.toTemplate`, `Refines.toConfig` — both ways across the bridge preserve
  refinement;
* `Refines.toConfig_eq` — what refines a settled value is the same to a configuration.

Design notes: one value refines another when it is the other with some holes filled,
tuples read as lists.  The hole is the value that stands for "not known yet" on the
side of the bridge in question.  The rules go by positions, so an induction on a
refinement is an induction on the depth of what is filled.
-/
import Interpolation.Proofs.Value.Settled
import Mathlib.Data.List.Forall2

namespace Interpolation.Value

/-- The items of a list or a tuple. -/
def items? : Value → Option (List Value)
  | .list items | .tuple items => some items
  | _ => none

/-- `Refines hole v w` holds when `w` is `v`, tuples read as lists, with any
occurrences of the hole replaced by arbitrary values. -/
inductive Refines (hole : Value) : Value → Value → Prop
  | fill (w : Value) : Refines hole hole w
  | refl (v : Value) : Refines hole v v
  | items {v w : Value} {xs ys : List Value} (hv : v.items? = some xs) (hw : w.items? = some ys)
      (hlength : xs.length = ys.length)
      (h : ∀ (i : Nat) x y, xs[i]? = some x → ys[i]? = some y → Refines hole x y) : Refines hole v w
  | entries {es fs : List (String × Value)} (hkeys : es.map Prod.fst = fs.map Prod.fst)
      (h : ∀ (i : Nat) e f, es[i]? = some e → fs[i]? = some f → Refines hole e.2 f.2) :
      Refines hole (.map es) (.map fs)

/-- A hole is a value that is not known yet. -/
def IsHole (hole : Value) : Prop :=
  hole = .unknown ∨ hole = .dynamic

theorem items?_eq_some {v : Value} {items : List Value} :
    v.items? = some items ↔ v = .list items ∨ v = .tuple items := by
  cases v <;> simp [items?]

variable {hole v w : Value}

theorem IsHole.not_isAtom (h : IsHole hole) : hole.isAtom = false := by
  rcases h with rfl | rfl <;> rfl

theorem IsHole.not_isSettled (h : IsHole hole) : hole.isSettled = false := by
  rcases h with rfl | rfl <;> rfl

section Keys

variable {es fs : List (String × Value)} (h : es.map Prod.fst = fs.map Prod.fst)
include h

theorem length_eq_of_keys : es.length = fs.length := by
  simpa using congrArg List.length h

theorem key_eq_of_keys {i : Nat} (he : i < es.length) (hf : i < fs.length) :
    es[i].1 = fs[i].1 := by
  have hkey : (es.map Prod.fst)[i]? = (fs.map Prod.fst)[i]? := by rw [h]
  simpa [he, hf] using hkey

end Keys

namespace Refines

theorem eq_of_isAtom (hhole : IsHole hole) (h : Refines hole v w) (hv : v.isAtom = true) :
    w = v := by
  cases h with
  | fill => rw [hhole.not_isAtom] at hv; cases hv
  | refl => rfl
  | items hitems =>
    rcases items?_eq_some.mp hitems with rfl | rfl <;> cases hv
  | entries => cases hv

theorem eq_of_isAtom_all (hhole : IsHole hole) {vs ws : List Value}
    (h : List.Forall₂ (Refines hole) vs ws) (hvs : ∀ v ∈ vs, v.isAtom = true) : ws = vs := by
  induction h with
  | nil => rfl
  | cons hv _ ih =>
    obtain ⟨hatom, hrest⟩ := List.forall_mem_cons.mp hvs
    rw [eq_of_isAtom hhole hv hatom, ih hrest]

/-- What refines a collection of items has as many items, which refine its items. -/
theorem items_inv (hhole : IsHole hole) (h : Refines hole v w) {xs : List Value}
    (hv : v.items? = some xs) :
    ∃ ys, w.items? = some ys ∧ List.Forall₂ (Refines hole) xs ys := by
  cases h with
  | fill => rcases hhole with rfl | rfl <;> cases hv
  | refl => exact ⟨xs, hv, List.forall₂_same.mpr fun x _ => .refl x⟩
  | @items _ _ xs' ys hv' hw hlength hitems =>
    obtain rfl : xs' = xs := Option.some.inj (hv'.symm.trans hv)
    refine ⟨ys, hw, List.forall₂_iff_get.mpr ⟨hlength, fun i hx hy => ?_⟩⟩
    exact hitems i _ _ (List.getElem?_eq_getElem hx) (List.getElem?_eq_getElem hy)
  | entries => cases hv

/-- What refines a map is a map with the same keys, whose values refine its values. -/
theorem entries_inv (hhole : IsHole hole) {es : List (String × Value)}
    (h : Refines hole (.map es) w) :
    ∃ fs, w = .map fs ∧ List.Forall₂ (fun e f => e.1 = f.1 ∧ Refines hole e.2 f.2) es fs := by
  cases h with
  | fill => rcases hhole with h | h <;> cases h
  | refl => exact ⟨es, rfl, List.forall₂_same.mpr fun e _ => ⟨rfl, .refl e.2⟩⟩
  | items hv => cases hv
  | @entries _ fs hkeys hentries =>
    have hlength := length_eq_of_keys hkeys
    refine ⟨fs, rfl, List.forall₂_iff_get.mpr ⟨hlength, fun i he hf => ⟨?_, ?_⟩⟩⟩
    · exact key_eq_of_keys hkeys he hf
    · exact hentries i _ _ (List.getElem?_eq_getElem he) (List.getElem?_eq_getElem hf)

/-- What is found in a map is refined by what is found in a map that refines it. -/
theorem find? {es fs : List (String × Value)}
    (h : List.Forall₂ (fun e f => e.1 = f.1 ∧ Refines hole e.2 f.2) es fs) {key : String}
    (hv : Value.find? key es = some v) :
    ∃ w, Value.find? key fs = some w ∧ Refines hole v w := by
  induction h with
  | nil => cases hv
  | @cons e f es fs hef _ ih =>
    rw [Value.find?_cons] at hv ⊢
    rw [← hef.1]
    by_cases hkey : (e.1 == key) = true
    · rw [if_pos hkey] at hv ⊢
      cases hv
      exact ⟨f.2, rfl, hef.2⟩
    · rw [if_neg hkey] at hv ⊢
      exact ih hv

theorem getElem? {xs ys : List Value} (h : List.Forall₂ (Refines hole) xs ys) {i : Nat}
    (hv : xs[i]? = some v) : ∃ w, ys[i]? = some w ∧ Refines hole v w := by
  obtain ⟨hi, rfl⟩ := List.getElem?_eq_some_iff.mp hv
  obtain ⟨hlength, hitems⟩ := List.forall₂_iff_get.mp h
  have hi' : i < ys.length := hlength ▸ hi
  exact ⟨ys[i], List.getElem?_eq_getElem hi', hitems i hi hi'⟩

/-! ### Across the bridge -/

/-- A conversion that maps one hole to another and collections item by item preserves
refinement. -/
theorem convert {hole' : Value} {f : Value → Value} (hhole : f hole = hole')
    (hitems : ∀ v xs, v.items? = some xs → (f v).items? = some (xs.map f))
    (hentries : ∀ es, f (.map es) = .map (es.map fun e => (e.1, f e.2)))
    (h : Refines hole v w) : Refines hole' (f v) (f w) := by
  induction h with
  | fill w =>
    rw [hhole]
    exact .fill (f w)
  | refl v => exact .refl (f v)
  | @items v w xs ys hv hw hlength _ ih =>
    refine .items (hitems v xs hv) (hitems w ys hw) (by simpa using hlength) ?_
    -- an item of a converted collection is the conversion of the item in its place
    intro i x y hx hy
    rw [List.getElem?_map] at hx hy
    obtain ⟨x, hx', rfl⟩ := Option.map_eq_some_iff.mp hx
    obtain ⟨y, hy', rfl⟩ := Option.map_eq_some_iff.mp hy
    exact ih i x y hx' hy'
  | @entries es fs hkeys _ ih =>
    rw [hentries, hentries]
    refine .entries (by simpa [Function.comp_def] using hkeys) ?_
    intro i e e' he he'
    rw [List.getElem?_map] at he he'
    obtain ⟨d, hd, rfl⟩ := Option.map_eq_some_iff.mp he
    obtain ⟨d', hd', rfl⟩ := Option.map_eq_some_iff.mp he'
    exact ih i d d' hd hd'

theorem toTemplate (h : Refines .dynamic v w) : Refines .unknown v.toTemplate w.toTemplate := by
  refine convert rfl (fun v xs hv => ?_) (fun es => ?_) h
  · rcases items?_eq_some.mp hv with rfl | rfl <;>
      simp [Value.toTemplate, itemsToTemplate_eq_map, items?]
  · rw [Value.toTemplate, entriesToTemplate_eq_map]

theorem toConfig (h : Refines .unknown v w) : Refines .dynamic v.toConfig w.toConfig := by
  refine convert rfl (fun v xs hv => ?_) (fun es => ?_) h
  · rcases items?_eq_some.mp hv with rfl | rfl <;>
      simp [Value.toConfig, itemsToConfig_eq_map, items?]
  · rw [Value.toConfig, entriesToConfig_eq_map]

/-- A settled value has no holes to fill, so a configuration cannot tell it from what
refines it. -/
theorem toConfig_eq (hhole : IsHole hole) (h : Refines hole v w) (hv : v.isSettled = true) :
    v.toConfig = w.toConfig := by
  induction h with
  | fill => rw [hhole.not_isSettled] at hv; cases hv
  | refl => rfl
  | @items v w xs ys hvs hws hlength _ ih =>
    have hsettled := isSettled_of_mem_items hv (items?_eq_some.mp hvs)
    have hmap : xs.map Value.toConfig = ys.map Value.toConfig := by
      refine List.ext_getElem (by simpa using hlength) fun i hx hy => ?_
      rw [List.length_map] at hx hy
      simp only [List.getElem_map]
      exact ih i _ _ (List.getElem?_eq_getElem hx) (List.getElem?_eq_getElem hy)
        (hsettled _ (List.getElem_mem hx))
    rcases items?_eq_some.mp hvs with rfl | rfl <;> rcases items?_eq_some.mp hws with rfl | rfl <;>
      simp only [Value.toConfig, itemsToConfig_eq_map, hmap]
  | @entries es fs hkeys _ ih =>
    have hsettled := isSettled_of_mem_entries hv
    have hmap : es.map (fun e => (e.1, e.2.toConfig)) = fs.map fun e => (e.1, e.2.toConfig) := by
      have hlength := length_eq_of_keys hkeys
      refine List.ext_getElem (by simpa using hlength) fun i he hf => ?_
      rw [List.length_map] at he hf
      simp only [List.getElem_map]
      refine Prod.ext (key_eq_of_keys hkeys he hf) ?_
      exact ih i _ _ (List.getElem?_eq_getElem he) (List.getElem?_eq_getElem hf)
        (hsettled _ (List.getElem_mem he))
    simp only [Value.toConfig, entriesToConfig_eq_map, hmap]

theorem map_toConfig_eq (hhole : IsHole hole) {vs ws : List Value}
    (h : List.Forall₂ (Refines hole) vs ws) (hvs : ∀ v ∈ vs, v.isSettled = true) :
    vs.map Value.toConfig = ws.map Value.toConfig := by
  induction h with
  | nil => rfl
  | cons hv _ ih =>
    obtain ⟨hsettled, hrest⟩ := List.forall_mem_cons.mp hvs
    rw [List.map_cons, List.map_cons, toConfig_eq hhole hv hsettled, ih hrest]

end Refines

end Interpolation.Value
