/-
Division of whole numbers in templates.

* `towardZero_neg`, `tdiv_eq_towardZero` — the quotient is the exact one, rounded toward zero;
* `isDivision_tdiv_tmod` — the quotient and the remainder fit together;
* `eval_division` — what `/` and `%` give on operands that are read as whole numbers.

Design notes: rounding toward zero is the same on both sides of it, and so is the division of
absolute values.  So the signs are taken off both at once, and what is left is the division of
natural numbers, where rounding toward zero is rounding down.
-/
import Interpolation.Proofs.Evaluation.Operation
import Interpolation.Proofs.Value.Equality
import Mathlib.Data.Rat.Floor
import Mathlib.Tactic.Positivity

namespace Interpolation

namespace Number

/-- The nearest whole number on the way to zero. -/
def towardZero (x : ℚ) : ℤ :=
  if 0 ≤ x then ⌊x⌋ else ⌈x⌉

theorem towardZero_neg (x : ℚ) : towardZero (-x) = -towardZero x := by
  unfold towardZero
  rcases lt_trichotomy x 0 with hneg | rfl | hpos
  · rw [if_pos (by linarith), if_neg (by linarith), Int.floor_neg]
  · simp
  · rw [if_neg (by linarith), if_pos (by linarith), Int.ceil_neg]

theorem tdiv_natCast (m n : ℕ) :
    (m : ℤ).tdiv n = towardZero (((m : ℤ) : ℚ) / ((n : ℤ) : ℚ)) := by
  have hnonneg : 0 ≤ ((m : ℤ) : ℚ) / ((n : ℤ) : ℚ) := by positivity
  rw [towardZero, if_pos hnonneg, Int.cast_natCast n, Rat.floor_intCast_div_natCast]
  rfl

/-- The exact quotient is rounded toward zero. -/
theorem tdiv_eq_towardZero (a b : ℤ) : a.tdiv b = towardZero ((a : ℚ) / b) := by
  obtain ⟨m, rfl | rfl⟩ := a.eq_nat_or_neg
  · obtain ⟨n, rfl | rfl⟩ := b.eq_nat_or_neg
    · exact tdiv_natCast m n
    · rw [Int.tdiv_neg, tdiv_natCast, Int.cast_neg, div_neg, towardZero_neg]
  · obtain ⟨n, rfl | rfl⟩ := b.eq_nat_or_neg
    · rw [Int.neg_tdiv, tdiv_natCast, Int.cast_neg, neg_div, towardZero_neg]
    · -- two signs cancel out on both sides
      rw [Int.neg_tdiv, Int.tdiv_neg, neg_neg, tdiv_natCast, Int.cast_neg, Int.cast_neg,
        neg_div_neg_eq]

/-- Quotient and remainder of whole numbers that fit together: the quotient is rounded toward
zero, and the remainder is the rest, which has the sign of the dividend. -/
structure IsDivision (a b q r : ℤ) : Prop where
  sum : a = b * q + r
  small : |r| < |b|
  sign : r = 0 ∨ r.sign = a.sign
  rounded : q = towardZero ((a : ℚ) / b)

theorem isDivision_tdiv_tmod {a b : ℤ} (hb : b ≠ 0) :
    IsDivision a b (a.tdiv b) (a.tmod b) where
  sum := (Int.mul_tdiv_add_tmod a b).symm
  small := by
    have hlt : (a.tmod b).natAbs < b.natAbs := by
      rw [Int.natAbs_tmod]
      exact Nat.mod_lt _ (Int.natAbs_pos.mpr hb)
    rw [Int.abs_eq_natAbs, Int.abs_eq_natAbs]
    exact Int.ofNat_lt.mpr hlt
  sign := by
    by_cases hdvd : b ∣ a
    · exact .inl (Int.tmod_eq_zero_of_dvd hdvd)
    · right
      rw [Int.sign_tmod, if_neg hdvd]
  rounded := tdiv_eq_towardZero a b

theorem isZero_zero : isZero (.int 0) = true := by
  rw [isZero, equal_int]
  rfl

theorem divide_zero (n : Number) : divide n (.int 0) = .error .zeroDivisor := by
  rw [divide, if_pos isZero_zero]

theorem modulo_zero (n : Number) : modulo n (.int 0) = .error .zeroDivisor := by
  cases n with
  | int a => rfl
  | float x =>
    simp only [modulo, isZero_zero, if_true]
    rfl

end Number

namespace Evaluation

open Config (Diagnostics)
open Expression (Origin)
open Number (IsDivision)
open Template (Node BinaryOp)

theorem isUnknown_of_toNumber {v : Value} {n : Number} (h : v.toNumber = .ok n) :
    v.isUnknown = false :=
  Value.isUnknown_of_isSettled (Value.isSettled_of_isAtom (Value.isAtom_of_toNumber h))

/-- An arithmetic operator on operands that are read as numbers is that of the numbers. -/
theorem applyBinary_of_toNumber {op : BinaryOp} (hop : op.isLogical = false) {l r : Value}
    {m n : Number} (hl : l.toNumber = .ok m) (hr : r.toNumber = .ok n) :
    applyBinary op l r =
      match arithmetic op m n with
      | .ok result => .ok (.ofNumber result)
      | .error e => .error (.ofNumber e) := by
  have hknown : (l.isUnknown || r.isUnknown) = false := by
    rw [isUnknown_of_toNumber hl, isUnknown_of_toNumber hr]
    rfl
  unfold applyBinary
  rw [hknown, hl, hr]
  cases op with
  | add | subtract | multiply | divide | modulo => rfl
  | _ => cases hop

variable {scope : Scope} {left right : Node Origin} {l r : Value} {a b : Int}
  {ws ws₁ ws₂ : Diagnostics}

/-- **Division and remainder of whole numbers fit together.**  The operands have values that
are read as whole numbers, be they numbers or texts.  By zero neither is defined.  Otherwise
both are whole numbers: the remainder is what the quotient leaves, it is smaller than the
divisor and has the sign of the dividend, and the quotient is rounded toward zero. -/
theorem eval_division (hl : l.toNumber = .ok (.int a)) (hr : r.toNumber = .ok (.int b))
    (hleft : eval scope left ws = .ok (l, ws₁)) (hright : eval scope right ws₁ = .ok (r, ws₂))
    (p : Template.Pos) :
    (b = 0 →
      eval scope (.binary p .divide left right) ws = .error (.error .zeroDivisor) ∧
      eval scope (.binary p .modulo left right) ws = .error (.error .zeroDivisor)) ∧
    (b ≠ 0 → ∃ quotient remainder,
      eval scope (.binary p .divide left right) ws = .ok (.int quotient, ws₂) ∧
      eval scope (.binary p .modulo left right) ws = .ok (.int remainder, ws₂) ∧
      IsDivision a b quotient remainder) := by
  rw [eval_binary rfl hleft hright, eval_binary rfl hleft hright,
    applyBinary_of_toNumber rfl hl hr, applyBinary_of_toNumber rfl hl hr]
  constructor
  · rintro rfl
    have hdivide : arithmetic .divide (.int a) (.int 0) = .error .zeroDivisor :=
      Number.divide_zero (.int a)
    have hmodulo : arithmetic .modulo (.int a) (.int 0) = .error .zeroDivisor :=
      Number.modulo_zero (.int a)
    rw [hdivide, hmodulo]
    exact ⟨rfl, rfl⟩
  · intro hb
    have hdivide : arithmetic .divide (.int a) (.int b) = .ok (.int (a.tdiv b)) :=
      Number.divide_int a b hb
    have hmodulo : arithmetic .modulo (.int a) (.int b) = .ok (.int (a.tmod b)) :=
      Number.modulo_int a b hb
    rw [hdivide, hmodulo]
    exact ⟨a.tdiv b, a.tmod b, rfl, rfl, Number.isDivision_tdiv_tmod hb⟩

/-- A negative number that is given as text, divided by a number and by a text of zero that has
a sign. -/
theorem eval_division_negative :
    (∃ quotient remainder,
      eval .empty (.binary .zero .divide (.literal .zero (.text "-7")) (.literal .zero (.int 2)))
        [] = .ok (.int quotient, []) ∧
      eval .empty (.binary .zero .modulo (.literal .zero (.text "-7")) (.literal .zero (.int 2)))
        [] = .ok (.int remainder, []) ∧
      IsDivision (-7) 2 quotient remainder) ∧
    eval .empty (.binary .zero .modulo (.literal .zero (.text "-7")) (.literal .zero (.text "-0")))
      [] = .error (.error .zeroDivisor) := by
  have hliteral : ∀ v, eval .empty (.literal .zero v) [] = .ok (v, []) := by
    intro v
    rw [eval]
    rfl
  have hseven : (Value.text "-7").toNumber = .ok (.int (-7)) := by with_unfolding_all rfl
  have hzero : (Value.text "-0").toNumber = .ok (.int 0) := by with_unfolding_all rfl
  constructor
  · exact (eval_division hseven rfl (hliteral _) (hliteral _) .zero).2 (by decide)
  · exact ((eval_division hseven hzero (hliteral _) (hliteral _) .zero).1 rfl).2

end Evaluation

end Interpolation
