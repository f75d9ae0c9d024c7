/-
Values: what variables hold, functions take and return, and templates evaluate
to.

* `Value.induction` — to prove something of every value, prove it of a collection
  from what holds of its items;
* `find?_insert_self`, `find?_insert_of_ne` — how replacing an entry of a map
  changes its look-ups;
* `Value.kind` — the kind of a value as the template language names it.

Design notes: templates and configurations share one type of values.  They
differ only in the value that stands for "not known yet": `unknown` belongs to
templates and `dynamic` to configurations, and each side sees the other's as an
opaque value.  Tuples are lists of another kind: they are never equal to lists.
A map is the list of its entries in the order of insertion, each key occurring
once.  A value that is not a number and was given from outside carries a mark,
the same wherever the value goes.  A computed one has none and needs none: an
expression has no way to bring it to two places.
-/
namespace Interpolation

/-- A value. -/
inductive Value where
  | null
  | bool (b : Bool)
  | int (i : Int)
  | float (x : Float)
  /-- A floating-point value that is not a number and was given, not computed. -/
  | notANumber (mark : Nat)
  | text (s : String)
  | list (items : List Value)
  | tuple (items : List Value)
  | map (entries : List (String × Value))
  /-- A value that a template does not know yet. -/
  | unknown
  /-- A value that a configuration does not know yet. -/
  | dynamic
  deriving Inhabited

/-- The kinds of values that the template language tells apart. -/
inductive Kind where
  | string
  | int
  | float
  | bool
  | list
  | map
  | any
  | unknown
  deriving DecidableEq, Repr

/-- The name of a kind. -/
def Kind.name : Kind → String
  | .string => "string"
  | .int => "int"
  | .float => "float"
  | .bool => "bool"
  | .list => "list"
  | .map => "map"
  | .any => "any"
  | .unknown => "unknown"

/-- Induction on values; collections are built from values that are smaller. -/
@[induction_eliminator]
theorem Value.induction {motive : Value → Prop}
    (null : motive .null) (bool : ∀ b, motive (.bool b)) (int : ∀ i, motive (.int i))
    (float : ∀ x, motive (.float x)) (notANumber : ∀ mark, motive (.notANumber mark))
    (text : ∀ s, motive (.text s))
    (list : ∀ items, (∀ v ∈ items, motive v) → motive (.list items))
    (tuple : ∀ items, (∀ v ∈ items, motive v) → motive (.tuple items))
    (map : ∀ entries, (∀ e ∈ entries, motive e.2) → motive (.map entries))
    (unknown : motive .unknown) (dynamic : motive .dynamic) (v : Value) : motive v :=
  Value.rec (motive_1 := motive) (motive_2 := fun items => ∀ v ∈ items, motive v)
    (motive_3 := fun entries => ∀ e ∈ entries, motive e.2) (motive_4 := fun e => motive e.2)
    null bool int float notANumber text list tuple map unknown dynamic
    (fun _ h => nomatch h)
    (fun _ _ first rest => List.forall_mem_cons.mpr ⟨first, rest⟩)
    (fun _ h => nomatch h)
    (fun _ _ first rest => List.forall_mem_cons.mpr ⟨first, rest⟩)
    (fun _ _ h => h) v

namespace Value

/-- The kind of a value; null and what configurations do not know are foreign to
templates. -/
def kind : Value → Kind
  | .unknown => .unknown
  | .bool _ => .bool
  | .int _ => .int
  | .float _ | .notANumber _ => .float
  | .text _ => .string
  | .list _ | .tuple _ => .list
  | .map _ => .map
  | .null | .dynamic => .any

/-- Whether a value is the one a template does not know yet. -/
def isUnknown : Value → Bool
  | .unknown => true
  | _ => false

/-- What a configuration calls a value of this type in its messages. -/
def typeName : Value → String
  | .null => "null"
  | .dynamic => "dynamic value"
  | .bool _ => "bool"
  | .int _ | .float _ | .notANumber _ => "number"
  | .text _ => "string"
  | .map _ => "map"
  | .list _ | .tuple _ => "list"
  | .unknown => "Unknown"

/-- The value under a key. -/
def find? (key : String) (entries : List (String × Value)) : Option Value :=
  (entries.find? fun e => e.1 == key).map Prod.snd

/-- Puts a value under a key: in the place of the key's entry if there is one,
else at the end. -/
def insert (key : String) (value : Value) :
    List (String × Value) → List (String × Value)
  | [] => [(key, value)]
  | (k, v) :: rest =>
    if k == key then (key, value) :: rest else (k, v) :: insert key value rest

/-- The map of a list of entries; of several entries for a key the last counts. -/
def ofEntries (entries : List (String × Value)) : Value :=
  .map (entries.foldl (fun acc e => insert e.1 e.2 acc) [])

@[simp] theorem find?_nil (key : String) : find? key [] = none := rfl

theorem find?_cons (key k : String) (v : Value) (rest : List (String × Value)) :
    find? key ((k, v) :: rest) = if k == key then some v else find? key rest := by
  simp only [find?, List.find?_cons]
  cases h : k == key <;> simp

theorem find?_insert_self (key : String) (value : Value) (entries : List (String × Value)) :
    find? key (insert key value entries) = some value := by
  induction entries with
  | nil => simp [insert, find?_cons]
  | cons e rest ih =>
    obtain ⟨k, v⟩ := e
    rw [insert]
    split
    · simp [find?_cons]
    · next h => simp [find?_cons, h, ih]

theorem find?_insert_of_ne {key other : String} (h : other ≠ key) (value : Value)
    (entries : List (String × Value)) :
    find? other (insert key value entries) = find? other entries := by
  induction entries with
  | nil => simp [insert, find?_cons, Ne.symm h]
  | cons e rest ih =>
    obtain ⟨k, v⟩ := e
    rw [insert]
    split
    · next hk =>
      have hk : k = key := by simpa using hk
      simp [find?_cons, hk, Ne.symm h]
    · simp [find?_cons, ih]

end Value

end Interpolation
