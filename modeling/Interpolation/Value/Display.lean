/-
The text of a value inside messages.

* `displayItems_eq_none_iff` — a list has no text exactly when one of its items
  has none.

Design notes: a value without text holds a whole number with too many digits.
Messages never shorten a value, so such a message cannot be given at all.
-/
import Interpolation.Number.Shortest
import Interpolation.Text.Quoted
import Interpolation.Value

namespace Interpolation.Value

/-- Floating-point numbers are positional from `0.0001` to below `10 ^ 16`, always
with a point, and have exponents of at least two digits. -/
def floatLayout : Shortest.Layout where
  lowest := -4
  highest := 15
  exponentWidth := 2
  wholeSuffix := ['.', '0']
  infinity := ['i', 'n', 'f']
  notANumber := ['n', 'a', 'n']

/-- The text of a floating-point number. -/
def floatText (x : Float) : String :=
  String.ofList (Shortest.render floatLayout x)

/-- Puts the texts of items between brackets. -/
def bracket (opening closing : String) (items : List String) : String :=
  opening ++ ", ".intercalate items ++ closing

/-- The items of a tuple in parentheses; a single one is followed by a comma. -/
def parenthesize : List String → String
  | [item] => "(" ++ item ++ ",)"
  | items => bracket "(" ")" items

mutual

/-- The text of a value, unless it holds a whole number that is too long. -/
def display : Value → Option String
  | .null => some "None"
  | .bool b => some (if b then "True" else "False")
  | .int i => Digits.text? i
  | .float x => some (floatText x)
  | .notANumber _ => some (floatText Binary64.notANumber)
  | .text s => some (Quoted.quote s)
  | .list items => (displayItems items).map (bracket "[" "]")
  | .tuple items => (displayItems items).map parenthesize
  | .map entries => (displayEntries entries).map (bracket "\x7b" "\x7d")
  | .unknown => some "UNKNOWN"
  | .dynamic => some "DYNAMIC"

/-- The texts of items in order. -/
def displayItems : List Value → Option (List String)
  | [] => some []
  | v :: rest => do
    let first ← display v
    let others ← displayItems rest
    return first :: others

/-- The texts of the entries of a map in order. -/
def displayEntries : List (String × Value) → Option (List String)
  | [] => some []
  | (key, v) :: rest => do
    let first ← display v
    let others ← displayEntries rest
    return (Quoted.quote key ++ ": " ++ first) :: others

end

theorem displayItems_eq_none_iff (items : List Value) :
    displayItems items = none ↔ ∃ v ∈ items, display v = none := by
  induction items with
  | nil => simp [displayItems]
  | cons v rest ih =>
    rw [displayItems]
    cases hv : display v with
    | none => simp [hv]
    | some t =>
      cases hr : displayItems rest with
      | none => simpa [hv, hr] using ih.mp hr
      | some ts =>
        have hnone : ¬ ∃ v ∈ rest, display v = none := fun h => by simp [ih.mpr h] at hr
        simpa [hv] using hnone

end Interpolation.Value
