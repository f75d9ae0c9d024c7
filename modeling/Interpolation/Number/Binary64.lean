/-
Floating-point numbers as exact fractions.

* `decode` takes a number apart into sign, significand and power of two;
* `ofRatio?` rounds an exact fraction to the nearest number, a tie to the even
  significand, and says when the result is beyond the greatest one.

Design notes: everything that must be exact (comparison with whole numbers,
remainders, texts) is computed on the parts with unbounded integers.  The
machine's own operations serve only where their single rounding is the result.
-/
namespace Interpolation.Binary64

/-- A floating-point number taken apart. -/
inductive Parts where
  | notANumber
  | infinite (negative : Bool)
  /-- The number `± significand * 2 ^ exponent`. -/
  | finite (negative : Bool) (significand : Nat) (exponent : Int)
  deriving DecidableEq, Repr

/-- The least exponent of a finite number. -/
def minExponent : Int := -1074

/-- Takes a number apart. -/
def decode (x : Float) : Parts :=
  let bits := x.toBits.toNat
  let negative := Nat.pow 2 63 ≤ bits
  let biased : Nat := bits / Nat.pow 2 52 % Nat.pow 2 11
  let fraction : Nat := bits % Nat.pow 2 52
  if biased = Nat.pow 2 11 - 1 then
    if fraction = 0 then .infinite negative else .notANumber
  else if biased = 0 then .finite negative fraction minExponent
  else .finite negative (Nat.pow 2 52 + fraction) (minExponent + ((biased : Int) - 1))

/-- Puts the bits of a number together: the magnitude's bits and the sign. -/
def ofMagnitude (negative : Bool) (bits : Nat) : Float :=
  Float.ofBits (UInt64.ofNat (if negative then Nat.pow 2 63 + bits else bits))

/-- The number infinitely large in either direction. -/
def infinity (negative : Bool) : Float :=
  ofMagnitude negative (2047 * Nat.pow 2 52)

/-- The floating-point value that is not a number. -/
def notANumber : Float :=
  ofMagnitude false (2047 * Nat.pow 2 52 + Nat.pow 2 51)

/-- The quotient `num / (den * 2 ^ e)`, rounded down, with the remainder and the
divisor it is relative to. -/
def scaledQuotient (num den : Nat) (e : Int) : Nat × Nat × Nat :=
  let dividend := num * Nat.pow 2 (-e).toNat
  let divisor := den * Nat.pow 2 e.toNat
  (dividend / divisor, dividend % divisor, divisor)

/-- The exponent of the significand of `num / den`: the one that leaves 53 bits,
but never below the least exponent. -/
def exponentOf (num den : Nat) : Int :=
  let guess := max minExponent ((num.log2 : Int) - den.log2 - 53)
  if Nat.pow 2 53 ≤ (scaledQuotient num den guess).1 then guess + 1 else guess

/-- Rounds a quotient to the nearest whole number, a half to the even one. -/
def roundHalfEven : Nat × Nat × Nat → Nat
  | (quotient, remainder, divisor) =>
    if divisor < 2 * remainder ∨ (divisor = 2 * remainder ∧ quotient % 2 = 1) then quotient + 1
    else quotient

/-- The number nearest to `± num / den`, or nothing when it would be infinite. -/
def ofRatio? (negative : Bool) (num den : Nat) : Option Float :=
  if num = 0 then some (ofMagnitude negative 0)
  else
    let e := exponentOf num den
    let significand := roundHalfEven (scaledQuotient num den e)
    let bits := (e - minExponent).toNat * Nat.pow 2 52 + significand
    if bits < 2047 * Nat.pow 2 52 then some (ofMagnitude negative bits) else none

/-- The number nearest to `± num / den`, infinite when that is out of reach. -/
def ofRatio (negative : Bool) (num den : Nat) : Float :=
  (ofRatio? negative num den).getD (infinity negative)

/-- The number nearest to `± digits * 10 ^ exponent`. -/
def ofDecimal (negative : Bool) (digits : Nat) (exponent : Int) : Float :=
  ofRatio negative (digits * Nat.pow 10 exponent.toNat) (Nat.pow 10 (-exponent).toNat)

/-- The number nearest to an integer, unless it is out of reach. -/
def ofInt? (i : Int) : Option Float :=
  ofRatio? (i < 0) i.natAbs 1

/-- The integer a number is equal to, if there is one. -/
def toInt? (x : Float) : Option Int :=
  match decode x with
  | .finite negative significand exponent =>
    let magnitude :=
      if 0 ≤ exponent then some (significand * Nat.pow 2 exponent.toNat)
      else if significand % Nat.pow 2 (-exponent).toNat = 0 then
        some (significand / Nat.pow 2 (-exponent).toNat)
      else none
    magnitude.map fun m => if negative then -(m : Int) else m
  | _ => none

end Interpolation.Binary64
