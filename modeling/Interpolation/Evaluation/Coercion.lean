/-
Values used as text, as numbers and as bools.

* `toText_int` — a whole number becomes its digits.

Design notes: numbers and bools become text in the way the template language
writes them, so a floating-point number without fraction is written like a whole
one.  Text counts as a number when it is one in decimal, and as a bool when it
spells one.
-/
import Interpolation.Evaluation.Failure
import Interpolation.Number.Reading

namespace Interpolation

namespace Value

/-- A value as text. -/
def toText : Value → Except Failure String
  | .bool b => .ok (if b then "true" else "false")
  | .int i => wholeText i
  | .float x =>
    match Binary64.toInt? x with
    | some i => wholeText i
    | none => .ok (floatText x)
  | .notANumber _ => .ok (floatText Binary64.notANumber)
  | .text s => .ok s
  | v => .error (.error (.notText v.kind))
where
  wholeText (i : Int) : Except Failure String :=
    match Digits.text? i with
    | some s => .ok s
    | none => .error (.error .numberTooLarge)

/-- A value as a number. -/
def toNumber : Value → Except Failure Number
  | .bool _ => .error (.error .boolAsNumber)
  | .int i => .ok (.int i)
  | .float x => .ok (.float x)
  | .notANumber _ => .ok (.float Binary64.notANumber)
  | .text s =>
    match Number.ofText? s.toList with
    | some n => .ok n
    | none => .error (.error (.unreadableNumber (Quoted.quote s)))
  | v => .error (.error (.notNumber v.kind))

/-- A value as a bool. -/
def toBool : Value → Except Failure Bool
  | .bool b => .ok b
  | .text "true" => .ok true
  | .text "false" => .ok false
  | v => .error (.showing v .notBool)

/-- The value of a number. -/
def ofNumber : Number → Value
  | .int i => .int i
  | .float x => .float x

theorem toText_int {i : Int} {s : String} (h : Digits.text? i = some s) :
    toText (.int i) = .ok s := by
  rw [toText, toText.wholeText, h]

end Value

end Interpolation
