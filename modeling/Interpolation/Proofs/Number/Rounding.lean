/-
Which whole numbers can be rounded to floating-point ones.

* `exponentOf_whole`, `exponentOf_small` — a whole number is rounded to its leading 53 bits,
  or filled up to them;
* `ofInt?_eq_none_iff` — a number is out of reach from `2 ^ 1024 - 2 ^ 970` on.

Design notes: `2 ^ 1024 - 2 ^ 970` lies half way between the greatest floating-point number
and the power of two that would come next, whose significand is the even one of the two.
-/
import Interpolation.Number.Binary64
import Mathlib.Algebra.Ring.Nat

namespace Interpolation.Binary64

theorem scaledQuotient_whole (num k : Nat) :
    scaledQuotient num 1 (k : Int) = (num / 2 ^ k, num % 2 ^ k, 2 ^ k) := by
  have hneg : (-(k : Int)).toNat = 0 := by omega
  simp [scaledQuotient, hneg]

theorem scaledQuotient_small (num k : Nat) :
    scaledQuotient num 1 (-(k : Int)) = (num * 2 ^ k, 0, 1) := by
  have hneg : (-(k : Int)).toNat = 0 := by omega
  simp [scaledQuotient, hneg, Nat.mod_one]

/-- Before it is known whether 54 bits or 53 are left, 54 are guessed. -/
theorem exponentOf_eq {num : Nat} {e : Int} (hnum : minExponent ≤ e)
    (hlog : (num.log2 : Int) = e + 53) (hquotient : 2 ^ 53 ≤ (scaledQuotient num 1 e).1) :
    exponentOf num 1 = e + 1 := by
  have hone : Nat.log2 1 = 0 := by decide
  have hguess : max minExponent ((num.log2 : Int) - Nat.log2 1 - 53) = e := by
    rw [hlog, hone]
    omega
  unfold exponentOf
  simp only [hguess]
  exact if_pos hquotient

/-- A number of `k + 54` bits keeps the leading 53 of them. -/
theorem exponentOf_whole {num k : Nat} (hlow : 2 ^ (k + 53) ≤ num) (hhigh : num < 2 ^ (k + 54)) :
    exponentOf num 1 = k + 1 := by
  have hpos : num ≠ 0 := Nat.ne_of_gt (Nat.lt_of_lt_of_le (Nat.two_pow_pos _) hlow)
  have hlog : num.log2 = k + 53 := (Nat.log2_eq_iff hpos).mpr ⟨hlow, hhigh⟩
  refine exponentOf_eq (by rw [minExponent]; omega) (by omega) ?_
  rw [scaledQuotient_whole]
  refine (Nat.le_div_iff_mul_le (Nat.two_pow_pos k)).mpr ?_
  rw [← Nat.pow_add, Nat.add_comm]
  exact hlow

/-- A number of at most 53 bits is filled up to them. -/
theorem exponentOf_small {num k : Nat} (hk : k ≤ 52) (hlow : 2 ^ (52 - k) ≤ num)
    (hhigh : num < 2 ^ (53 - k)) : exponentOf num 1 = -(k : Int) := by
  have hpos : num ≠ 0 := Nat.ne_of_gt (Nat.lt_of_lt_of_le (Nat.two_pow_pos _) hlow)
  have hlog : num.log2 = 52 - k :=
    (Nat.log2_eq_iff hpos).mpr ⟨hlow, by rwa [show 52 - k + 1 = 53 - k by omega]⟩
  have he : -(k : Int) = -((k + 1 : Nat) : Int) + 1 := by omega
  rw [he]
  refine exponentOf_eq (by rw [minExponent]; omega) (by omega) ?_
  rw [scaledQuotient_small]
  have hmul := Nat.mul_le_mul_right (2 ^ (k + 1)) hlow
  rwa [← Nat.pow_add, show 52 - k + (k + 1) = 53 by omega] at hmul

theorem roundHalfEven_cases (quotient remainder divisor : Nat) :
    roundHalfEven (quotient, remainder, divisor) = quotient ∨
      roundHalfEven (quotient, remainder, divisor) = quotient + 1 := by
  rw [roundHalfEven]
  split
  · exact .inr rfl
  · exact .inl rfl

/-- An odd quotient is rounded up from half the divisor on. -/
theorem roundHalfEven_odd {quotient : Nat} (hodd : quotient % 2 = 1) (remainder divisor : Nat) :
    roundHalfEven (quotient, remainder, divisor) = quotient + 1 ↔ divisor ≤ 2 * remainder := by
  rw [roundHalfEven]
  split
  · next h => exact ⟨fun _ => by omega, fun _ => rfl⟩
  · next h => exact ⟨fun hup => by omega, fun hhalf => by omega⟩

/-- What is within reach has an exponent and a significand that leave the bits of an infinite
number free. -/
theorem ofRatio?_eq_none_iff {negative : Bool} {num : Nat} (h : num ≠ 0) {e : Int}
    (he : exponentOf num 1 = e) :
    ofRatio? negative num 1 = none ↔
      2047 * 2 ^ 52 ≤ (e + 1074).toNat * 2 ^ 52 + roundHalfEven (scaledQuotient num 1 e) := by
  unfold ofRatio?
  rw [if_neg h, he]
  simp [minExponent]

/-- A number of at most 53 bits is within reach. -/
theorem ofRatio?_small {negative : Bool} {num : Nat} (h : num < 2 ^ 53) :
    ofRatio? negative num 1 ≠ none := by
  by_cases hzero : num = 0
  · simp [ofRatio?, hzero]
  · obtain ⟨k, hk, hlow, hhigh⟩ : ∃ k ≤ 52, 2 ^ (52 - k) ≤ num ∧ num < 2 ^ (53 - k) := by
      have hlow := Nat.log2_self_le hzero
      have hhigh := Nat.lt_log2_self (n := num)
      have hlog : num.log2 < 53 := (Nat.log2_lt hzero).mpr h
      refine ⟨52 - num.log2, by omega, ?_, ?_⟩
      · rwa [show 52 - (52 - num.log2) = num.log2 by omega]
      · rwa [show 53 - (52 - num.log2) = num.log2 + 1 by omega]
    have hmul := Nat.mul_lt_mul_of_pos_right hhigh (Nat.two_pow_pos k)
    rw [← Nat.pow_add, show 53 - k + k = 53 by omega] at hmul
    rw [Ne, ofRatio?_eq_none_iff hzero (exponentOf_small hk hlow hhigh), scaledQuotient_small]
    rcases roundHalfEven_cases (num * 2 ^ k) 0 1 with hround | hround <;> rw [hround] <;> omega

/-- A number of more bits is out of reach as its leading bits are, when they are rounded. -/
theorem ofRatio?_whole {negative : Bool} {num k : Nat} (hlow : 2 ^ (k + 53) ≤ num)
    (hhigh : num < 2 ^ (k + 54)) :
    ofRatio? negative num 1 = none ↔ 2047 * 2 ^ 52 ≤ (k + 1075) * 2 ^ 52 +
      roundHalfEven (num / 2 ^ (k + 1), num % 2 ^ (k + 1), 2 ^ (k + 1)) := by
  have hpos : num ≠ 0 := Nat.ne_of_gt (Nat.lt_of_lt_of_le (Nat.two_pow_pos _) hlow)
  have he : ((k : Int) + 1) = ((k + 1 : Nat) : Int) := by omega
  rw [ofRatio?_eq_none_iff hpos (exponentOf_whole hlow hhigh), he, scaledQuotient_whole]
  have hbias : (((k + 1 : Nat) : Int) + 1074).toNat = k + 1075 := by omega
  rw [hbias]

/-- Of the numbers with a given exponent those are rounded up to the next power of two that lie
at least half way between it and the number before it. -/
theorem roundHalfEven_last {quotient remainder half : Nat} (hquotient : quotient < 2 ^ 53)
    (hremainder : remainder < 2 * half) :
    2 ^ 53 ≤ roundHalfEven (quotient, remainder, 2 * half) ↔
      (2 ^ 53 - 1) * (2 * half) + half ≤ quotient * (2 * half) + remainder := by
  by_cases hlast : quotient = 2 ^ 53 - 1
  · subst hlast
    -- the greatest significand is odd, so half way is rounded up
    have hodd : (2 ^ 53 - 1) % 2 = 1 := by decide
    have hup := roundHalfEven_odd hodd remainder (2 * half)
    have hround := roundHalfEven_cases (2 ^ 53 - 1) remainder (2 * half)
    omega
  · have hmul : (quotient + 1) * (2 * half) ≤ (2 ^ 53 - 1) * (2 * half) :=
      Nat.mul_le_mul_right _ (by omega)
    rw [Nat.add_mul, Nat.one_mul] at hmul
    have hround := roundHalfEven_cases quotient remainder (2 * half)
    omega

/-- The bits of a rounded number reach those of a power of two as the number is rounded up to
it. -/
theorem bits_le_iff {num k c : Nat} (hlow : 2 ^ (k + 53) ≤ num) (hhigh : num < 2 ^ (k + 54)) :
    (c + 1077) * 2 ^ 52 ≤
        (k + 1075) * 2 ^ 52 + roundHalfEven (num / 2 ^ (k + 1), num % 2 ^ (k + 1), 2 ^ (k + 1)) ↔
      (2 ^ 53 - 1) * (2 * 2 ^ c) + 2 ^ c ≤ num := by
  have hleast : 2 ^ 52 ≤ num / 2 ^ (k + 1) := by
    refine (Nat.le_div_iff_mul_le (Nat.two_pow_pos _)).mpr ?_
    rw [← Nat.pow_add, show 52 + (k + 1) = k + 53 by omega]
    exact hlow
  have hgreatest : num / 2 ^ (k + 1) < 2 ^ 53 := by
    refine (Nat.div_lt_iff_lt_mul (Nat.two_pow_pos _)).mpr ?_
    rw [← Nat.pow_add, show 53 + (k + 1) = k + 54 by omega]
    exact hhigh
  have hround := roundHalfEven_cases (num / 2 ^ (k + 1)) (num % 2 ^ (k + 1)) (2 ^ (k + 1))
  -- the rounding only matters where one bit more would be needed
  rcases Nat.lt_trichotomy k c with hk | rfl | hk
  · have hpow : 2 ^ (k + 54) ≤ 2 ^ 53 * 2 ^ c := by
      rw [← Nat.pow_add]
      exact Nat.pow_le_pow_right Nat.two_pos (by omega)
    omega
  · have hbits : ∀ s, (k + 1077) * 2 ^ 52 ≤ (k + 1075) * 2 ^ 52 + s ↔ 2 ^ 53 ≤ s := by omega
    have hdivision := Nat.div_add_mod' num (2 ^ (k + 1))
    have hremainder := Nat.mod_lt num (Nat.two_pow_pos (k + 1))
    have hdivisor : 2 ^ (k + 1) = 2 * 2 ^ k := Nat.pow_succ'
    rw [hdivisor] at hgreatest hdivision hremainder ⊢
    have hlast := roundHalfEven_last hgreatest hremainder
    rw [hdivision] at hlast
    exact (hbits _).trans hlast
  · have hpow : 2 ^ 54 * 2 ^ c ≤ 2 ^ (k + 53) := by
      rw [← Nat.pow_add]
      exact Nat.pow_le_pow_right Nat.two_pos (by omega)
    omega

/-- A whole number is too large to be rounded to a floating-point one. -/
def OutOfReach (i : Int) : Prop :=
  2 ^ 1024 - 2 ^ 970 ≤ i.natAbs

/-- **From `2 ^ 1024 - 2 ^ 970` on a whole number is out of reach**, and only from there on. -/
theorem ofInt?_eq_none_iff (i : Int) : ofInt? i = none ↔ OutOfReach i := by
  unfold ofInt? OutOfReach
  generalize i.natAbs = num
  by_cases hsmall : num < 2 ^ 53
  · simp only [ofRatio?_small hsmall, false_iff, Nat.not_le]
    omega
  · obtain ⟨k, hlow, hhigh⟩ : ∃ k, 2 ^ (k + 53) ≤ num ∧ num < 2 ^ (k + 54) := by
      have hpos : num ≠ 0 := by omega
      have hlog : 53 ≤ num.log2 := (Nat.le_log2 hpos).mpr (by omega)
      refine ⟨num.log2 - 53, ?_, ?_⟩
      · rw [show num.log2 - 53 + 53 = num.log2 by omega]
        exact Nat.log2_self_le hpos
      · rw [show num.log2 - 53 + 54 = num.log2 + 1 by omega]
        exact Nat.lt_log2_self
    have hbits := bits_le_iff (c := 970) hlow hhigh
    have htop := Nat.pow_add 2 54 970
    simp only [Nat.reduceAdd] at hbits htop
    rw [ofRatio?_whole hlow hhigh, hbits]
    omega

end Interpolation.Binary64
