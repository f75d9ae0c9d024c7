/-
Values that hold others, and conversions that go through them part by part.

* `parts_induction` — to prove something of every value, prove it of what has no parts, of
  lists and tuples alike, and of maps;
* `Converts.occursIn_iff` — what occurs in a converted value is what the values that occur in
  it are converted to;
* `Converts.eq_of_leaves` — conversions that agree on the leaves of a value agree on it.

Design notes: a conversion turns lists and tuples into lists and keeps the keys of maps.  What
it does besides is said by what it does to the values without parts, its leaves, so a law of a
conversion need only be checked on those.
-/
import Interpolation.Proofs.Value.Settled
import Mathlib.Logic.Basic

namespace Interpolation.Value

/-- A value occurs in another one, which may be the same, as an item or an entry at some
depth. -/
inductive OccursIn (u : Value) : Value → Prop
  | self : OccursIn u u
  | item {v w : Value} {items : List Value} (hv : v = .list items ∨ v = .tuple items)
    (hw : w ∈ items) (h : OccursIn u w) : OccursIn u v
  | entry {entries : List (String × Value)} {e : String × Value} (he : e ∈ entries)
    (h : OccursIn u e.2) : OccursIn u (.map entries)

/-- Whether a value has no parts. -/
def isLeaf : Value → Bool
  | .list _ | .tuple _ | .map _ => false
  | _ => true

/-- Induction on values that treats lists and tuples alike, and all values without parts. -/
@[elab_as_elim]
theorem parts_induction {motive : Value → Prop} (leaf : ∀ v, v.isLeaf = true → motive v)
    (items : ∀ v items, v = .list items ∨ v = .tuple items → (∀ w ∈ items, motive w) → motive v)
    (entries : ∀ entries, (∀ e ∈ entries, motive e.2) → motive (.map entries)) (v : Value) :
    motive v := by
  induction v with
  | list xs ih => exact items _ xs (.inl rfl) ih
  | tuple xs ih => exact items _ xs (.inr rfl) ih
  | map es ih => exact entries es ih
  | _ => exact leaf _ rfl

variable {u v w : Value}

/-! ### What occurs where -/

theorem occursIn_leaf_iff (hv : v.isLeaf = true) : u.OccursIn v ↔ u = v := by
  constructor
  · intro h
    cases h with
    | self => rfl
    | item hitems => rcases hitems with rfl | rfl <;> cases hv
    | entry => cases hv
  · rintro rfl
    exact .self

theorem occursIn_items_iff {items : List Value} (hv : v = .list items ∨ v = .tuple items) :
    u.OccursIn v ↔ u = v ∨ ∃ w ∈ items, u.OccursIn w := by
  constructor
  · intro h
    cases h with
    | self => exact .inl rfl
    | @item _ w others hothers hw h =>
      obtain rfl : items = others := by rcases hv with rfl | rfl <;> simpa using hothers
      exact .inr ⟨w, hw, h⟩
    | entry => simp at hv
  · rintro (rfl | ⟨w, hw, h⟩)
    · exact .self
    · exact .item hv hw h

theorem occursIn_map_iff {entries : List (String × Value)} :
    u.OccursIn (.map entries) ↔ u = .map entries ∨ ∃ e ∈ entries, u.OccursIn e.2 := by
  constructor
  · intro h
    cases h with
    | self => exact .inl rfl
    | item hv => simp at hv
    | entry he h => exact .inr ⟨_, he, h⟩
  · rintro (rfl | ⟨e, he, h⟩)
    · exact .self
    · exact .entry he h

/-- A value is settled when neither of the two that stand for "not known yet" occurs in it. -/
theorem isSettled_iff :
    v.isSettled = true ↔ ¬Value.unknown.OccursIn v ∧ ¬Value.dynamic.OccursIn v := by
  induction v using parts_induction with
  | leaf v hv =>
    rw [occursIn_leaf_iff hv, occursIn_leaf_iff hv]
    cases v with
    | list | tuple | map => cases hv
    | _ => simp [isSettled]
  | items v items hv ih =>
    have hsettled : v.isSettled = itemsSettled items := by
      rcases hv with rfl | rfl <;> rw [isSettled]
    have hunknown : Value.unknown ≠ v := by rcases hv with rfl | rfl <;> simp
    have hdynamic : Value.dynamic ≠ v := by rcases hv with rfl | rfl <;> simp
    rw [hsettled, itemsSettled_iff, occursIn_items_iff hv, occursIn_items_iff hv]
    simp only [hunknown, hdynamic, false_or, not_exists, not_and, ← forall₂_and]
    exact forall₂_congr ih
  | entries es ih =>
    rw [isSettled, entriesSettled_iff, occursIn_map_iff, occursIn_map_iff]
    simp only [reduceCtorEq, false_or, not_exists, not_and, ← forall₂_and]
    exact forall₂_congr ih

/-! ### Conversions -/

/-- A function that goes through collections part by part, making a list of every tuple. -/
structure Converts (f : Value → Value) : Prop where
  leaf : ∀ {v}, v.isLeaf = true → (f v).isLeaf = true
  items : ∀ {v items}, v = .list items ∨ v = .tuple items → f v = .list (items.map f)
  entries : ∀ entries, f (.map entries) = .map (entries.map fun e => (e.1, f e.2))

theorem toTemplate_converts : Converts toTemplate where
  leaf {v} hv := by
    cases v with
    | list | tuple | map => cases hv
    | _ => rfl
  items hv := by rcases hv with rfl | rfl <;> rw [toTemplate, itemsToTemplate_eq_map]
  entries es := by rw [toTemplate, entriesToTemplate_eq_map]

theorem toConfig_converts : Converts toConfig where
  leaf {v} hv := by
    cases v with
    | list | tuple | map => cases hv
    | _ => rfl
  items hv := by rcases hv with rfl | rfl <;> rw [toConfig, itemsToConfig_eq_map]
  entries es := by rw [toConfig, entriesToConfig_eq_map]

namespace Converts

variable {f g : Value → Value}

theorem comp (hf : Converts f) (hg : Converts g) : Converts fun v => g (f v) where
  leaf hv := hg.leaf (hf.leaf hv)
  items hv := by rw [hf.items hv, hg.items (.inl rfl), List.map_map]; rfl
  entries es := by rw [hf.entries, hg.entries, List.map_map]; rfl

/-- **What occurs in a converted value** is what the values that occur in it are converted
to. -/
theorem occursIn_iff (hf : Converts f) : u.OccursIn (f v) ↔ ∃ w, w.OccursIn v ∧ f w = u := by
  constructor
  · intro h
    induction v using parts_induction with
    | leaf v hv => exact ⟨v, .self, ((occursIn_leaf_iff (hf.leaf hv)).mp h).symm⟩
    | items v items hv ih =>
      rcases (occursIn_items_iff (.inl (hf.items hv))).mp h with rfl | ⟨w, hw, h⟩
      · exact ⟨v, .self, rfl⟩
      · obtain ⟨x, hx, rfl⟩ := List.mem_map.mp hw
        obtain ⟨w, hwx, hw⟩ := ih x hx h
        exact ⟨w, .item hv hx hwx, hw⟩
    | entries es ih =>
      rw [hf.entries] at h
      rcases occursIn_map_iff.mp h with rfl | ⟨e, he, h⟩
      · exact ⟨.map es, .self, hf.entries es⟩
      · obtain ⟨d, hd, rfl⟩ := List.mem_map.mp he
        obtain ⟨w, hwd, hw⟩ := ih d hd h
        exact ⟨w, .entry hd hwd, hw⟩
  · rintro ⟨w, h, rfl⟩
    induction h with
    | self => exact .self
    | item hv hx _ ih => exact .item (.inl (hf.items hv)) (List.mem_map_of_mem hx) ih
    | @entry es e he _ ih =>
      rw [hf.entries]
      exact .entry (List.mem_map_of_mem he) ih

/-- **Conversions that agree on the leaves of a value agree on it.** -/
theorem eq_of_leaves (hf : Converts f) (hg : Converts g)
    (h : ∀ w, w.OccursIn v → w.isLeaf = true → f w = g w) : f v = g v := by
  induction v using parts_induction with
  | leaf v hv => exact h v .self hv
  | items v items hv ih =>
    have hmap : items.map f = items.map g := by
      refine List.map_congr_left fun x hx => ih x hx fun w hw => ?_
      exact h w (.item hv hx hw)
    rw [hf.items hv, hg.items hv, hmap]
  | entries es ih =>
    have hmap : es.map (fun e => (e.1, f e.2)) = es.map fun e => (e.1, g e.2) := by
      refine List.map_congr_left fun e he => ?_
      rw [ih e he fun w hw => h w (.entry he hw)]
    rw [hf.entries, hg.entries, hmap]

end Converts

end Interpolation.Value
