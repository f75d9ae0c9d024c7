/-
Equality of values.

* `same_refl_int`, `same_bool_int` — numbers are equal by value, and inside
  collections a bool counts as the number 0 or 1.

Design notes: whole and floating-point numbers are equal when their exact values
are.  Maps are equal when they have the same keys with equal values, in any
order.  Lists and tuples are never equal to one another.
-/
import Interpolation.Number
import Interpolation.Value

namespace Interpolation.Value

/-- The number a value counts as when it is compared for equality.  What is given
and not a number counts as none. -/
def asNumber? : Value → Option Number
  | .bool b => some (.int (if b then 1 else 0))
  | .int i => some (.int i)
  | .float x => some (.float x)
  | _ => none

mutual

/-- Equality inside collections. -/
def same : Value → Value → Bool
  | .null, .null => true
  | .unknown, .unknown => true
  | .dynamic, .dynamic => true
  | .notANumber m, .notANumber n => m == n
  | .text s, .text t => s == t
  | .list xs, .list ys => sameItems xs ys
  | .tuple xs, .tuple ys => sameItems xs ys
  | .map es, .map fs => es.length == fs.length && sameEntries es fs
  | v, w =>
    match v.asNumber?, w.asNumber? with
    | some a, some b => a.equal b
    | _, _ => false

/-- Equality of items, one by one. -/
def sameItems : List Value → List Value → Bool
  | [], [] => true
  | v :: vs, w :: ws => same v w && sameItems vs ws
  | _, _ => false

/-- Whether every entry has an equal one among the others. -/
def sameEntries : List (String × Value) → List (String × Value) → Bool
  | [], _ => true
  | (key, v) :: rest, others =>
    (match find? key others with
      | some w => same v w
      | none => false) && sameEntries rest others

end

/-- Whether a value is a bool. -/
def isBool : Value → Bool
  | .bool _ => true
  | _ => false

/-- Equality as templates decide it: a bool and a value that is none are
different, and what is not a number differs even from itself. -/
def equal : Value → Value → Bool
  | .notANumber _, _ => false
  | v, w => v.isBool == w.isBool && same v w

theorem same_refl_int (i : Int) : same (.int i) (.int i) = true := by
  simp [same, asNumber?, Number.equal_int]

theorem same_bool_int (b : Bool) (i : Int) :
    same (.bool b) (.int i) = decide ((if b then 1 else 0) = i) := by
  simp [same, asNumber?, Number.equal_int]

end Interpolation.Value
