/-
Values on their way between templates and configurations.

* `toTemplate` and `toConfig` exchange the two values that stand for "not known
  yet" and turn every tuple into a list, at every depth;
* `isKnown` says whether a configuration value is known throughout.
-/
import Interpolation.Value

namespace Interpolation.Value

mutual

/-- A configuration value as templates see it. -/
def toTemplate : Value → Value
  | .dynamic => .unknown
  | .map entries => .map (entriesToTemplate entries)
  | .list items | .tuple items => .list (itemsToTemplate items)
  | v => v

def itemsToTemplate : List Value → List Value
  | [] => []
  | v :: rest => toTemplate v :: itemsToTemplate rest

def entriesToTemplate : List (String × Value) → List (String × Value)
  | [] => []
  | (key, v) :: rest => (key, toTemplate v) :: entriesToTemplate rest

end

mutual

/-- A template value as configurations see it. -/
def toConfig : Value → Value
  | .unknown => .dynamic
  | .map entries => .map (entriesToConfig entries)
  | .list items | .tuple items => .list (itemsToConfig items)
  | v => v

def itemsToConfig : List Value → List Value
  | [] => []
  | v :: rest => toConfig v :: itemsToConfig rest

def entriesToConfig : List (String × Value) → List (String × Value)
  | [] => []
  | (key, v) :: rest => (key, toConfig v) :: entriesToConfig rest

end

mutual

/-- Whether a configuration value, and everything inside it, is known. -/
def isKnown : Value → Bool
  | .dynamic => false
  | .map entries => entriesKnown entries
  | .list items | .tuple items => itemsKnown items
  | _ => true

def itemsKnown : List Value → Bool
  | [] => true
  | v :: rest => isKnown v && itemsKnown rest

def entriesKnown : List (String × Value) → Bool
  | [] => true
  | (_, v) :: rest => isKnown v && entriesKnown rest

end

theorem itemsToTemplate_eq_map (items : List Value) :
    itemsToTemplate items = items.map toTemplate := by
  induction items with
  | nil => simp [itemsToTemplate]
  | cons v rest ih => simp [itemsToTemplate, ih]

theorem itemsToConfig_eq_map (items : List Value) :
    itemsToConfig items = items.map toConfig := by
  induction items with
  | nil => simp [itemsToConfig]
  | cons v rest ih => simp [itemsToConfig, ih]

theorem itemsKnown_eq_all (items : List Value) : itemsKnown items = items.all isKnown := by
  induction items with
  | nil => simp [itemsKnown]
  | cons v rest ih => simp [itemsKnown, ih]

end Interpolation.Value
