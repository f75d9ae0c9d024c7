/-
Looking up one element of a collection.

* `index_dynamic` — nothing is reported about what is not known yet;
* `index_list`, `index_tuple` — lists and tuples are indexed alike.

Design notes: maps take text keys and lists take whole numbers.  A key that is a
floating-point number counts when it has no fraction; a bool never counts as a
number here.
-/
import Interpolation.Config.Diagnostic
import Interpolation.Fault
import Interpolation.Number.Binary64
import Interpolation.Text.Quoted

namespace Interpolation.Config

/-- The list position a key stands for, if any. -/
def position? : Value → Except Fault (Option Int)
  | .int i => .ok (some i)
  | .float x => .ok (Binary64.toInt? x)
  | .text s =>
    let digits := s.toList
    if digits ≠ [] ∧ digits.all Char.isDigit then
      match Digits.toNat? digits with
      | some n => .ok (some n)
      | none => .error (.tooManyDigitsToRead digits.length)
    else .ok none
  | _ => .ok none

/-- The item at a position counted from 0. -/
def item? (items : List Value) (position : Int) : Option Value :=
  if 0 ≤ position then items[position.toNat]? else none

/-- The element of a list under a key. -/
def indexItems (items : List Value) (key : Value) (subject : Option Range) :
    Except Fault Result := do
  match ← position? key with
  | none =>
    return .ofError "Invalid index"
      "The given key does not identify an element in this collection value." subject
  | some position =>
    match item? items position with
    | some v => return .ofValue v
    | none =>
      match Digits.text? position with
      | none => throw .tooManyDigits
      | some shown =>
        return .ofError "Invalid index"
          ("The given index " ++ shown ++ " is out of range for a list of " ++
            Digits.text items.length ++ " elements.") subject

/-- The element of a map under a key. -/
def indexEntries (entries : List (String × Value)) (key : Value) (subject : Option Range) :
    Result :=
  match key with
  | .text s =>
    match Value.find? s entries with
    | some v => .ofValue v
    | none =>
      .ofError "Missing map element"
        ("This map does not have an element with the key " ++ Quoted.quote s ++ ".") subject
  | _ =>
    .ofError "Invalid index"
      ("A map can only be indexed by a string, not a " ++ key.typeName ++ ".") subject

/-- The element of a collection under a key. -/
def index (collection key : Value) (subject : Option Range) : Except Fault Result :=
  match collection, key with
  | .dynamic, _ | _, .dynamic => .ok (.ofValue .dynamic)
  | .null, _ =>
    .ok (.ofError "Attempt to index null value"
      "This value is null, so it does not have any indices." subject)
  | .map entries, _ => .ok (indexEntries entries key subject)
  | .list items, _ | .tuple items, _ => indexItems items key subject
  | _, _ =>
    .ok (.ofError "Invalid index"
      ("This value does not have any indices; it is a " ++ collection.typeName ++ ".") subject)

theorem index_dynamic (key : Value) (subject : Option Range) :
    index .dynamic key subject = .ok (.ofValue .dynamic) := by
  simp [index]

theorem index_list (items : List Value) {key : Value} (h : key ≠ .dynamic)
    (subject : Option Range) :
    index (.list items) key subject = indexItems items key subject := by
  cases key <;> simp_all [index]

theorem index_tuple (items : List Value) {key : Value} (h : key ≠ .dynamic)
    (subject : Option Range) :
    index (.tuple items) key subject = indexItems items key subject := by
  cases key <;> simp_all [index]

end Interpolation.Config
