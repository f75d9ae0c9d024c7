/-
Settled values: those in which nothing is left to become known.

* `isKnown_toConfig` — a template value is settled exactly when it is known as a
  configuration value;
* `isSettled_toTemplate` — the way to a template settles nothing and unsettles
  nothing;
* `isSettled_of_find?`, `isSettled_of_getElem?` — what is found in a settled
  collection is settled.

Design notes: a value may hold either of the two values that stand for "not known
yet", because each side of the bridge treats the other's as an opaque value.  A
settled value holds neither, at any depth.  Atoms are the settled values without
parts; they are all that operators compute with.
-/
import Interpolation.Value.Knowledge

namespace Interpolation.Value

mutual

/-- Whether neither of the values that stand for "not known yet" occurs in a value. -/
def isSettled : Value → Bool
  | .unknown | .dynamic => false
  | .map entries => entriesSettled entries
  | .list items | .tuple items => itemsSettled items
  | _ => true

def itemsSettled : List Value → Bool
  | [] => true
  | v :: rest => isSettled v && itemsSettled rest

def entriesSettled : List (String × Value) → Bool
  | [] => true
  | (_, v) :: rest => isSettled v && entriesSettled rest

end

/-- Whether a value has no parts and is not one of those that are not known yet. -/
def isAtom : Value → Bool
  | .unknown | .dynamic | .map _ | .list _ | .tuple _ => false
  | _ => true

theorem isSettled_of_isAtom {v : Value} (h : v.isAtom = true) : v.isSettled = true := by
  cases v with
  | unknown | dynamic | map | list | tuple => cases h
  | _ => rfl

theorem itemsSettled_iff {items : List Value} :
    itemsSettled items = true ↔ ∀ v ∈ items, v.isSettled = true := by
  induction items with
  | nil => simp [itemsSettled]
  | cons v rest ih => simp [itemsSettled, ih]

theorem entriesSettled_iff {entries : List (String × Value)} :
    entriesSettled entries = true ↔ ∀ e ∈ entries, e.2.isSettled = true := by
  induction entries with
  | nil => simp [entriesSettled]
  | cons e rest ih => simp [entriesSettled, ih]

/-! ### Conversions, entry by entry -/

theorem entriesToTemplate_eq_map (entries : List (String × Value)) :
    entriesToTemplate entries = entries.map fun e => (e.1, e.2.toTemplate) := by
  induction entries with
  | nil => simp [entriesToTemplate]
  | cons e rest ih => simp [entriesToTemplate, ih]

theorem entriesToConfig_eq_map (entries : List (String × Value)) :
    entriesToConfig entries = entries.map fun e => (e.1, e.2.toConfig) := by
  induction entries with
  | nil => simp [entriesToConfig]
  | cons e rest ih => simp [entriesToConfig, ih]

theorem entriesKnown_eq_all (entries : List (String × Value)) :
    entriesKnown entries = entries.all fun e => e.2.isKnown := by
  induction entries with
  | nil => simp [entriesKnown]
  | cons e rest ih => simp [entriesKnown, ih]

/-- A call passes its arguments on exactly when they are settled. -/
theorem isKnown_toConfig (v : Value) : v.toConfig.isKnown = v.isSettled := by
  induction v with
  | list items ih | tuple items ih =>
    rw [toConfig, isKnown, isSettled, itemsToConfig_eq_map, itemsKnown_eq_all, List.all_map,
      Bool.eq_iff_iff, itemsSettled_iff, List.all_eq_true]
    exact forall₂_congr fun v hv => by rw [← ih v hv]; rfl
  | map entries ih =>
    rw [toConfig, isKnown, isSettled, entriesToConfig_eq_map, entriesKnown_eq_all, List.all_map,
      Bool.eq_iff_iff, entriesSettled_iff, List.all_eq_true]
    exact forall₂_congr fun e he => by rw [← ih e he]; rfl
  | _ => rfl

theorem all_isKnown_map_toConfig (values : List Value) :
    (values.map toConfig).all isKnown = values.all isSettled := by
  rw [List.all_map]
  exact congrArg _ (funext isKnown_toConfig)

theorem isSettled_toTemplate (v : Value) : v.toTemplate.isSettled = v.isSettled := by
  induction v with
  | list items ih | tuple items ih =>
    rw [toTemplate, isSettled, isSettled, itemsToTemplate_eq_map, Bool.eq_iff_iff,
      itemsSettled_iff, itemsSettled_iff, List.forall_mem_map]
    exact forall₂_congr fun v hv => by rw [ih v hv]
  | map entries ih =>
    rw [toTemplate, isSettled, isSettled, entriesToTemplate_eq_map, Bool.eq_iff_iff,
      entriesSettled_iff, entriesSettled_iff, List.forall_mem_map]
    exact forall₂_congr fun e he => by rw [ih e he]
  | _ => rfl

/-! ### What settled values are made of -/

theorem isUnknown_iff {v : Value} : v.isUnknown = true ↔ v = .unknown := by
  cases v <;> simp [isUnknown]

theorem ne_unknown_of_isSettled {v : Value} (h : v.isSettled = true) : v ≠ .unknown := by
  rintro rfl
  cases h

theorem isUnknown_of_isSettled {v : Value} (h : v.isSettled = true) : v.isUnknown = false := by
  rw [Bool.eq_false_iff, ne_eq, isUnknown_iff]
  exact ne_unknown_of_isSettled h

theorem any_isUnknown_of_settled {values : List Value}
    (h : ∀ v ∈ values, v.isSettled = true) : values.any isUnknown = false := by
  rw [List.any_eq_false]
  intro v hv
  simp [isUnknown_of_isSettled (h v hv)]

theorem isSettled_of_mem_items {v : Value} {items : List Value} (h : v.isSettled = true)
    (hv : v = .list items ∨ v = .tuple items) : ∀ u ∈ items, u.isSettled = true := by
  rw [← itemsSettled_iff]
  rcases hv with rfl | rfl <;> simpa [isSettled] using h

theorem isSettled_of_mem_entries {entries : List (String × Value)}
    (h : (map entries).isSettled = true) : ∀ e ∈ entries, e.2.isSettled = true := by
  rw [← entriesSettled_iff]
  simpa [isSettled] using h

theorem isSettled_of_getElem? {v u : Value} {items : List Value} {i : Nat}
    (h : v.isSettled = true) (hv : v = .list items ∨ v = .tuple items)
    (hu : items[i]? = some u) : u.isSettled = true :=
  isSettled_of_mem_items h hv u (List.mem_of_getElem? hu)

theorem isSettled_of_find? {key : String} {entries : List (String × Value)} {v : Value}
    (h : (map entries).isSettled = true) (hv : find? key entries = some v) :
    v.isSettled = true := by
  obtain ⟨e, he, rfl⟩ := Option.map_eq_some_iff.mp hv
  exact isSettled_of_mem_entries h e (List.mem_of_find?_eq_some he)

end Interpolation.Value
