/-
What the ways between templates and configurations leave of a value.

* `isTupleFree_toConfig` — every tuple has become a list, at every depth;
* `isSettled_toConfig` — nothing has become known or unknown on the way;
* `toConfig_toTemplate_iff`, `toTemplate_toConfig_iff` — which values survive both ways, one
  after the other;
* `conversion_lossless` — nothing is lost but what is a tuple, and nothing foreign is left.

Design notes: each side has a value of its own for "not known yet".  The way there and back
makes the one that does not belong to the side where it begins into the one that does, and
otherwise only turns tuples into lists, which `untupled` says without either way.
-/
import Interpolation.Proofs.Value.Parts

namespace Interpolation.Value

mutual

/-- Whether a value is no tuple and holds none, at any depth. -/
def isTupleFree : Value → Bool
  | .tuple _ => false
  | .map entries => entriesTupleFree entries
  | .list items => itemsTupleFree items
  | _ => true

def itemsTupleFree : List Value → Bool
  | [] => true
  | v :: rest => isTupleFree v && itemsTupleFree rest

def entriesTupleFree : List (String × Value) → Bool
  | [] => true
  | (_, v) :: rest => isTupleFree v && entriesTupleFree rest

end

theorem itemsTupleFree_iff {items : List Value} :
    itemsTupleFree items = true ↔ ∀ v ∈ items, v.isTupleFree = true := by
  induction items with
  | nil => simp [itemsTupleFree]
  | cons v rest ih => simp [itemsTupleFree, ih]

theorem entriesTupleFree_iff {entries : List (String × Value)} :
    entriesTupleFree entries = true ↔ ∀ e ∈ entries, e.2.isTupleFree = true := by
  induction entries with
  | nil => simp [entriesTupleFree]
  | cons e rest ih => simp [entriesTupleFree, ih]

theorem isTupleFree_toConfig (v : Value) : v.toConfig.isTupleFree = true := by
  induction v with
  | list items ih | tuple items ih =>
    rw [toConfig, isTupleFree, itemsToConfig_eq_map, itemsTupleFree_iff, List.forall_mem_map]
    exact ih
  | map entries ih =>
    rw [toConfig, isTupleFree, entriesToConfig_eq_map, entriesTupleFree_iff, List.forall_mem_map]
    exact ih
  | _ => rfl

theorem isSettled_toConfig (v : Value) : v.toConfig.isSettled = v.isSettled := by
  induction v with
  | list items ih | tuple items ih =>
    rw [toConfig, isSettled, isSettled, itemsToConfig_eq_map, Bool.eq_iff_iff, itemsSettled_iff,
      itemsSettled_iff, List.forall_mem_map]
    exact forall₂_congr fun v hv => by rw [ih v hv]
  | map entries ih =>
    rw [toConfig, isSettled, isSettled, entriesToConfig_eq_map, Bool.eq_iff_iff,
      entriesSettled_iff, entriesSettled_iff, List.forall_mem_map]
    exact forall₂_congr fun e he => by rw [ih e he]
  | _ => rfl

/-! ### There and back -/

mutual

/-- The value with every tuple in it turned into a list, at every depth. -/
def untupled : Value → Value
  | .map entries => .map (entriesUntupled entries)
  | .list items | .tuple items => .list (itemsUntupled items)
  | v => v

def itemsUntupled : List Value → List Value
  | [] => []
  | v :: rest => untupled v :: itemsUntupled rest

def entriesUntupled : List (String × Value) → List (String × Value)
  | [] => []
  | (key, v) :: rest => (key, untupled v) :: entriesUntupled rest

end

theorem itemsUntupled_eq_map (items : List Value) : itemsUntupled items = items.map untupled := by
  induction items with
  | nil => simp [itemsUntupled]
  | cons v rest ih => simp [itemsUntupled, ih]

theorem entriesUntupled_eq_map (entries : List (String × Value)) :
    entriesUntupled entries = entries.map fun e => (e.1, e.2.untupled) := by
  induction entries with
  | nil => simp [entriesUntupled]
  | cons e rest ih => simp [entriesUntupled, ih]

theorem untupled_converts : Converts untupled where
  leaf {v} hv := by
    cases v with
    | list | tuple | map => cases hv
    | _ => rfl
  items hv := by rcases hv with rfl | rfl <;> rw [untupled, itemsUntupled_eq_map]
  entries es := by rw [untupled, entriesUntupled_eq_map]

/-- What templates do not know yet does not occur in a configuration value. -/
theorem not_unknown_occursIn_toConfig (v : Value) : ¬Value.unknown.OccursIn v.toConfig := by
  intro h
  obtain ⟨w, -, hw⟩ := toConfig_converts.occursIn_iff.mp h
  cases w <;> simp [toConfig] at hw

/-- What configurations do not know yet does not occur in a template value. -/
theorem not_dynamic_occursIn_toTemplate (v : Value) : ¬Value.dynamic.OccursIn v.toTemplate := by
  intro h
  obtain ⟨w, -, hw⟩ := toTemplate_converts.occursIn_iff.mp h
  cases w <;> simp [toTemplate] at hw

theorem not_tuple_occursIn_toConfig (v : Value) (items : List Value) :
    ¬(Value.tuple items).OccursIn v.toConfig := by
  intro h
  obtain ⟨w, -, hw⟩ := toConfig_converts.occursIn_iff.mp h
  cases w <;> simp [toConfig] at hw

/-- **A value comes back from a template** with its tuples made lists, unless it holds what
only templates do not know. -/
theorem toConfig_toTemplate_iff (v : Value) :
    v.toTemplate.toConfig = v.untupled ↔ ¬Value.unknown.OccursIn v := by
  constructor
  · intro heq h
    have huntupled : Value.unknown.OccursIn v.untupled :=
      untupled_converts.occursIn_iff.mpr ⟨.unknown, h, rfl⟩
    rw [← heq] at huntupled
    exact not_unknown_occursIn_toConfig v.toTemplate huntupled
  · intro h
    refine (toTemplate_converts.comp toConfig_converts).eq_of_leaves untupled_converts ?_
    intro w hw hleaf
    cases w with
    | list | tuple | map => cases hleaf
    | unknown => exact absurd hw h
    | _ => rfl

/-- **A value comes back from a configuration** with its tuples made lists, unless it holds
what only configurations do not know. -/
theorem toTemplate_toConfig_iff (v : Value) :
    v.toConfig.toTemplate = v.untupled ↔ ¬Value.dynamic.OccursIn v := by
  constructor
  · intro heq h
    have huntupled : Value.dynamic.OccursIn v.untupled :=
      untupled_converts.occursIn_iff.mpr ⟨.dynamic, h, rfl⟩
    rw [← heq] at huntupled
    exact not_dynamic_occursIn_toTemplate v.toConfig huntupled
  · intro h
    refine (toConfig_converts.comp toTemplate_converts).eq_of_leaves untupled_converts ?_
    intro w hw hleaf
    cases w with
    | list | tuple | map => cases hleaf
    | dynamic => exact absurd hw h
    | _ => rfl

/-- **The ways between templates and configurations lose nothing.**  There and back a value
stays the same but for its tuples, exactly if it holds nothing that is foreign to the side
where it begins.  What arrives in a configuration holds no tuple and nothing that is foreign
to it, and is known exactly if nothing was unknown to either side. -/
theorem conversion_lossless (v : Value) :
    (v.toTemplate.toConfig = v.untupled ↔ ¬Value.unknown.OccursIn v) ∧
      (v.toConfig.toTemplate = v.untupled ↔ ¬Value.dynamic.OccursIn v) ∧
      ¬Value.unknown.OccursIn v.toConfig ∧
      (∀ items, ¬(Value.tuple items).OccursIn v.toConfig) ∧
      (v.toConfig.isKnown = true ↔ ¬Value.unknown.OccursIn v ∧ ¬Value.dynamic.OccursIn v) := by
  refine ⟨toConfig_toTemplate_iff v, toTemplate_toConfig_iff v, not_unknown_occursIn_toConfig v,
    not_tuple_occursIn_toConfig v, ?_⟩
  rw [isKnown_toConfig]
  exact isSettled_iff

/-- There and back a tuple in a map becomes a list, and the keys keep their order. -/
example :
    (map [("b", .tuple [.int 1, .dynamic]), ("a", .null)]).toTemplate.toConfig =
      map [("b", .list [.int 1, .dynamic]), ("a", .null)] := by
  rfl

end Interpolation.Value
