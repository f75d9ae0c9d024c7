/-
Decimal digits of whole numbers.

* `toNat_concat` — reading goes digit by digit from the left;
* `text?_isSome_iff` — an integer has a text exactly when it lies below the
  digit limit.

Design notes: whole numbers have no bound, but their texts do.  A number of more
than `digitLimit` digits is neither written nor read; leading zeros count when
reading, a sign never does.
-/
namespace Interpolation.Digits

/-- The most decimal digits a whole number may have in a text.  It is irreducible
so that proofs do not compute the power of ten it stands for. -/
@[irreducible] def digitLimit : Nat := 4300

/-- The decimal digits of a natural number. -/
def ofNat (n : Nat) : List Char :=
  Nat.toDigits 10 n

/-- The value of a decimal digit. -/
def digitValue (c : Char) : Nat :=
  c.toNat - '0'.toNat

/-- The natural number a run of decimal digits stands for. -/
def toNat (cs : List Char) : Nat :=
  cs.foldl (fun n c => 10 * n + digitValue c) 0

/-- The decimal digits of an integer, after a minus sign when it is negative. -/
def ofInt (i : Int) : List Char :=
  if i < 0 then '-' :: ofNat i.natAbs else ofNat i.natAbs

/-- The text of an integer, unless it has too many digits. -/
def text? (i : Int) : Option String :=
  if i.natAbs < Nat.pow 10 digitLimit then some (String.ofList (ofInt i)) else none

/-- The text of an integer in places where numbers are never too long. -/
def text (i : Int) : String :=
  String.ofList (ofInt i)

/-- The natural number a run of decimal digits stands for, unless the run is too
long. -/
def toNat? (cs : List Char) : Option Nat :=
  if cs.length ≤ digitLimit then some (toNat cs) else none

/-- Splits off the decimal digits at the front of a text. -/
def span (cs : List Char) : List Char × List Char :=
  (cs.takeWhile Char.isDigit, cs.dropWhile Char.isDigit)

theorem digitLimit_pos : 0 < digitLimit := by
  rw [digitLimit]
  decide

theorem toNat_concat (a : List Char) (c : Char) :
    toNat (a ++ [c]) = 10 * toNat a + digitValue c := by
  simp [toNat]

theorem text?_isSome_iff (i : Int) : (text? i).isSome ↔ i.natAbs < Nat.pow 10 digitLimit := by
  unfold text?
  split <;> simp_all

end Interpolation.Digits
