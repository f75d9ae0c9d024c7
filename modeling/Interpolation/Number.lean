/-
Numbers of the template language: whole numbers without bound and
floating-point numbers, freely mixed.

* `compare_int` — whole numbers compare as integers;
* `divide_int`, `modulo_int` — division of whole numbers rounds toward zero and
  the remainder takes the sign of the dividend.

Design notes: two whole numbers give a whole number.  As soon as one operand is
a floating-point number the other is rounded to one, which fails when it is out
of range.  Comparison rounds nothing: it compares the exact values, and answers
nothing when one side is not a number.
-/
import Interpolation.Number.Binary64

namespace Interpolation

/-- A number. -/
inductive Number where
  | int (i : Int)
  | float (x : Float)

namespace Number

/-- Why an operation has no result. -/
inductive Failure where
  /-- The divisor is zero. -/
  | zeroDivisor
  /-- A whole number is too large to be rounded to a floating-point number. -/
  | overflow
  /-- The remainder of an infinite dividend. -/
  | domain
  deriving DecidableEq, Repr

/-- The parts of a number, those of a whole number being exact. -/
def parts : Number → Binary64.Parts
  | .int i => .finite (i < 0) i.natAbs 0
  | .float x => Binary64.decode x

/-- The integer `± significand * 2 ^ (exponent - base)` for a base not above the
exponent. -/
def scaled (base : Int) (negative : Bool) (significand : Nat) (exponent : Int) : Int :=
  let magnitude : Int := significand * Nat.pow 2 (exponent - base).toNat
  if negative then -magnitude else magnitude

/-- Orders two numbers taken apart. -/
def compareParts : Binary64.Parts → Binary64.Parts → Option Ordering
  | .notANumber, _ | _, .notANumber => none
  | .infinite n, .infinite m => some (compare m n)
  | .infinite n, .finite .. => some (if n then .lt else .gt)
  | .finite .., .infinite n => some (if n then .gt else .lt)
  | .finite n s e, .finite m t f =>
    some (compare (scaled (min e f) n s e) (scaled (min e f) m t f))

/-- Orders two numbers by their exact values. -/
def compare (a b : Number) : Option Ordering :=
  compareParts a.parts b.parts

/-- Whether two numbers have the same value. -/
def equal (a b : Number) : Bool :=
  a.compare b == some .eq

/-- Whether a number has the value zero. -/
def isZero (a : Number) : Bool :=
  a.equal (.int 0)

/-- The floating-point number nearest to a number. -/
def toFloat : Number → Except Failure Float
  | .int i => match Binary64.ofInt? i with
    | some x => .ok x
    | none => .error .overflow
  | .float x => .ok x

/-- Applies an operation that exists for whole and for floating-point numbers. -/
def lift (onInt : Int → Int → Int) (onFloat : Float → Float → Float) :
    Number → Number → Except Failure Number
  | .int a, .int b => .ok (.int (onInt a b))
  | a, b => do
    let x ← a.toFloat
    let y ← b.toFloat
    return .float (onFloat x y)

def add : Number → Number → Except Failure Number := lift (· + ·) (· + ·)

def subtract : Number → Number → Except Failure Number := lift (· - ·) (· - ·)

def multiply : Number → Number → Except Failure Number := lift (· * ·) (· * ·)

/-- The quotient of whole numbers: that of their absolute values, negated where the signs
differ. -/
def wholeQuotient (a b : Int) : Int :=
  let magnitude : Int := (a.natAbs / b.natAbs : Nat)
  if a < 0 ↔ b < 0 then magnitude else -magnitude

/-- The remainder of whole numbers: that of their absolute values, with the sign of the
dividend. -/
def wholeRemainder (a b : Int) : Int :=
  let magnitude : Int := (a.natAbs % b.natAbs : Nat)
  if 0 ≤ a then magnitude else -magnitude

/-- Division; of whole numbers toward zero. -/
def divide (a b : Number) : Except Failure Number :=
  if b.isZero then .error .zeroDivisor else lift wholeQuotient (· / ·) a b

/-- The remainder of floating-point division toward zero, which is exact and
takes the sign of the dividend. -/
def remainder (x y : Float) : Except Failure Float :=
  match Binary64.decode x, Binary64.decode y with
  | .notANumber, _ => .ok x
  | _, .notANumber => .ok y
  | .infinite _, _ => .error .domain
  | .finite .., .infinite _ => .ok x
  | .finite n s e, .finite _ t f =>
    let base := min e f
    let rest := (s * Nat.pow 2 (e - base).toNat) % (t * Nat.pow 2 (f - base).toNat)
    .ok (Binary64.ofRatio n (rest * Nat.pow 2 base.toNat) (Nat.pow 2 (-base).toNat))

/-- The remainder of division toward zero. -/
def modulo : Number → Number → Except Failure Number
  | .int a, .int b => if b = 0 then .error .zeroDivisor else .ok (.int (wholeRemainder a b))
  | a, b => do
    if b.isZero then throw .zeroDivisor
    let x ← a.toFloat
    let y ← b.toFloat
    return .float (← remainder x y)

/-- The number with its sign changed. -/
def negate : Number → Number
  | .int i => .int (-i)
  | .float x => .float (-x)

theorem scaled_zero (i : Int) : scaled 0 (i < 0) i.natAbs 0 = i := by
  simp only [scaled, Int.sub_self, Int.toNat_zero, Nat.pow, Int.natCast_one, Int.mul_one,
    decide_eq_true_eq]
  split <;> omega

theorem compare_int (a b : Int) :
    compare (.int a) (.int b) = some (Ord.compare a b) := by
  simp only [compare, parts, compareParts, Int.min_self]
  rw [scaled_zero, scaled_zero]

theorem equal_int (a b : Int) : equal (.int a) (.int b) = decide (a = b) := by
  simp only [equal, compare_int]
  by_cases h : a = b
  · simp [h]
  · have : Ord.compare a b ≠ .eq := fun he => h (Std.LawfulEqOrd.eq_of_compare he)
    simp [h, this]

theorem wholeQuotient_eq_tdiv (a b : Int) : wholeQuotient a b = a.tdiv b := by
  unfold wholeQuotient
  cases a with
  | ofNat m =>
    have hm : 0 ≤ Int.ofNat m := Int.natCast_nonneg m
    cases b with
    | ofNat n =>
      have hn : 0 ≤ Int.ofNat n := Int.natCast_nonneg n
      rw [if_pos (by omega)]
      rfl
    | negSucc n =>
      rw [if_neg (by omega)]
      rfl
  | negSucc m =>
    cases b with
    | ofNat n =>
      have hn : 0 ≤ Int.ofNat n := Int.natCast_nonneg n
      rw [if_neg (by omega)]
      rfl
    | negSucc n =>
      rw [if_pos (by omega)]
      rfl

theorem wholeRemainder_eq_tmod (a b : Int) : wholeRemainder a b = a.tmod b := by
  unfold wholeRemainder
  cases a with
  | ofNat m =>
    have hm : 0 ≤ Int.ofNat m := Int.natCast_nonneg m
    rw [if_pos hm]
    cases b <;> rfl
  | negSucc m =>
    rw [if_neg (by omega)]
    cases b <;> rfl

theorem divide_int (a b : Int) (h : b ≠ 0) :
    divide (.int a) (.int b) = .ok (.int (a.tdiv b)) := by
  simp [divide, isZero, equal_int, h, lift, wholeQuotient_eq_tdiv]

theorem modulo_int (a b : Int) (h : b ≠ 0) :
    modulo (.int a) (.int b) = .ok (.int (a.tmod b)) := by
  simp [modulo, h, wholeRemainder_eq_tmod]

end Number

end Interpolation
