/-
The shortest decimal text of a floating-point number.

* `shortest` finds the fewest digits that read back as the same number and,
  among those, the ones nearest to it;
* `render` writes them by the rules of a `Layout`.

Design notes: a decimal reads back as the number when it lies between the
midpoints to the two neighbouring numbers; a midpoint itself reads back when the
significand is even.  All comparisons are between integers.  Of a grid of
decimals only the two next to the number have to be tried: if any point of the
grid reads back, one of these does.
-/
import Interpolation.Number.Binary64
import Interpolation.Number.Digits

namespace Interpolation.Shortest

/-- The positive number `significand * 2 ^ exponent`. -/
structure Dyadic where
  significand : Nat
  exponent : Int

/-- The decimal `digits * 10 ^ exponent`. -/
structure Decimal where
  digits : Nat
  exponent : Int
  deriving DecidableEq, Repr

/-- Compares `a * 2 ^ p` with `b * 10 ^ q`. -/
def compareScaled (a : Nat) (p : Int) (b : Nat) (q : Int) : Ordering :=
  compare (a * Nat.pow 2 p.toNat * Nat.pow 10 (-q).toNat)
    (b * Nat.pow 10 q.toNat * Nat.pow 2 (-p).toNat)

/-- The midpoints to the neighbours below and above, in quarters of the unit of
the significand.  Just above a power of two the lower neighbour is nearer. -/
def Dyadic.midpoints (x : Dyadic) : Nat × Nat :=
  let below :=
    if x.significand = Nat.pow 2 52 ∧ Binary64.minExponent < x.exponent then 1 else 2
  (4 * x.significand - below, 4 * x.significand + 2)

/-- Whether a decimal reads back as the number. -/
def Dyadic.readsBack (x : Dyadic) (d : Decimal) : Bool :=
  let (low, high) := x.midpoints
  let atLow := compareScaled low (x.exponent - 2) d.digits d.exponent
  let atHigh := compareScaled high (x.exponent - 2) d.digits d.exponent
  if x.significand % 2 = 0 then atLow ≠ .gt && atHigh ≠ .lt
  else atLow = .lt && atHigh = .gt

/-- The greatest multiple of `10 ^ k` that does not exceed the number, in units
of `10 ^ k`. -/
def Dyadic.floorAt (x : Dyadic) (k : Int) : Nat :=
  (x.significand * Nat.pow 2 x.exponent.toNat * Nat.pow 10 (-k).toNat) /
    (Nat.pow 2 (-x.exponent).toNat * Nat.pow 10 k.toNat)

/-- The exponent of the leading decimal digit, found by counting digits of the
whole part or by scaling a fraction up. -/
def Dyadic.leading (x : Dyadic) : Int :=
  let whole := x.floorAt 0
  if whole ≠ 0 then (Digits.ofNat whole).length - 1
  else
    match (List.range 330).find? fun (j : Nat) => x.floorAt (-(j : Int)) ≠ 0 with
    | some j => -(j : Int)
    | none => -330

/-- The neighbour of the number on the grid of multiples of `10 ^ k` that reads
back; of two the nearer, and of two equally near the even one. -/
def Dyadic.onGrid (x : Dyadic) (k : Int) : Option Decimal :=
  let down : Decimal := ⟨x.floorAt k, k⟩
  let up : Decimal := ⟨x.floorAt k + 1, k⟩
  match x.readsBack down, x.readsBack up with
  | true, false => some down
  | false, true => some up
  | false, false => none
  | true, true =>
    match compareScaled (2 * x.significand) x.exponent (down.digits + up.digits) k with
    | .lt => some down
    | .gt => some up
    | .eq => some (if down.digits % 2 = 0 then down else up)

/-- The shortest decimal that reads back as the number.  The coarsest grid is the
one of the next power of ten, which the number may round up to; the finest gives
it seventeen digits, which always suffice. -/
def shortest (x : Dyadic) : Decimal :=
  let lead := x.leading
  let grids := (List.range 18).map fun (n : Nat) => lead + 1 - n
  (grids.findSome? x.onGrid).getD ⟨x.floorAt (lead - 16), lead - 16⟩

/-- How decimals are laid out. -/
structure Layout where
  /-- The least exponent of the leading digit that is written positionally. -/
  lowest : Int
  /-- The greatest exponent of the leading digit that is written positionally. -/
  highest : Int
  /-- The least number of digits of a written exponent. -/
  exponentWidth : Nat
  /-- What follows a number without fraction in positional form. -/
  wholeSuffix : List Char
  infinity : List Char
  notANumber : List Char

/-- Positional form: the digits with a point, zeros filled in on either side. -/
def positional (layout : Layout) (ds : List Char) (exponent : Int) : List Char :=
  if 0 ≤ exponent then ds ++ List.replicate exponent.toNat '0' ++ layout.wholeSuffix
  else
    let fraction := (-exponent).toNat
    let padded := List.replicate (fraction + 1 - ds.length) '0' ++ ds
    padded.take (padded.length - fraction) ++ '.' :: padded.drop (padded.length - fraction)

/-- Scientific form: one digit, a point when more follow, and the exponent. -/
def scientific (layout : Layout) (ds : List Char) (lead : Int) : List Char :=
  let power := Digits.ofNat lead.natAbs
  let mantissa :=
    match ds with
    | d :: e :: more => d :: '.' :: e :: more
    | short => short
  mantissa ++ 'e' :: (if lead < 0 then '-' else '+') ::
    (List.replicate (layout.exponentWidth - power.length) '0' ++ power)

/-- The text of a positive decimal. -/
def renderDecimal (layout : Layout) (d : Decimal) : List Char :=
  let ds := Digits.ofNat d.digits
  let lead := d.exponent + (ds.length - 1)
  if layout.lowest ≤ lead ∧ lead ≤ layout.highest then positional layout ds d.exponent
  else scientific layout ds lead

/-- The text of a floating-point number. -/
def render (layout : Layout) (x : Float) : List Char :=
  match Binary64.decode x with
  | .notANumber => layout.notANumber
  | .infinite negative => (if negative then ['-'] else []) ++ layout.infinity
  | .finite negative significand exponent =>
    (if negative then ['-'] else []) ++
      (if significand = 0 then positional layout ['0'] 0
       else renderDecimal layout (shortest ⟨significand, exponent⟩))

end Interpolation.Shortest
