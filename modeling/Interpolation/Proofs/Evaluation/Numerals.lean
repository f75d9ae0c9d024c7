/-
Which texts are numbers, and which numbers come back from their text.

* `ofUnsigned?_eq_some_iff`, `ofText?_eq_some_iff` — reading finds exactly the number that is
  written;
* `isNumeral_iff` — which texts have a number;
* `toNumber_toText` — a whole number within the digit limit comes back from its text.

Design notes: what is read is described once, by what is written and the number it stands for
(`Written`).  Which texts are accepted and what a printed number is read as are both read off
it.  The limit is a bound on the number for the printer and a bound on the digits for the
reader.  They meet because a printed number has no leading zeros: below the power of ten it
has no more digits than the exponent.
-/
import Interpolation.Evaluation.Coercion
import Interpolation.Proofs.Template.Spelling
import Mathlib.Data.Nat.Digits.Defs

namespace Interpolation

namespace Number

open Template (IsDigits IsNumber)

/-! ### Numbers as they are written -/

/-- The characters are a number without its sign: digits, not too many of them, or digits with
a point between them. -/
inductive Written (negative : Bool) : List Char → Number → Prop where
  | whole {digits : List Char} (hdigits : IsDigits digits)
    (hshort : digits.length ≤ Digits.digitLimit) :
    Written negative digits
      (.int (if negative then -(Digits.toNat digits : Int) else Digits.toNat digits))
  | point {whole fraction : List Char} (hwhole : IsDigits whole)
    (hfraction : IsDigits fraction) :
    Written negative (whole ++ '.' :: fraction)
      (.float (Binary64.ofDecimal negative (Digits.toNat (whole ++ fraction))
        (-(fraction.length : Int))))

variable {negative : Bool} {cs : List Char} {n : Number}

/-- The pattern is that of the number tokens, without their limit. -/
theorem Written.isNumber (h : Written negative cs n) : IsNumber cs := by
  cases h with
  | whole hdigits => exact .inl hdigits
  | point hwhole hfraction => exact .inr ⟨_, _, hwhole, hfraction, rfl⟩

/-- **Without a sign, reading finds exactly the number that is written.** -/
theorem ofUnsigned?_eq_some_iff : ofUnsigned? negative cs = some n ↔ Written negative cs n := by
  constructor
  · intro h
    have hcs : cs.takeWhile Char.isDigit ++ cs.dropWhile Char.isDigit = cs :=
      List.takeWhile_append_dropWhile
    have hwhole : ∀ c ∈ cs.takeWhile Char.isDigit, c.isDigit = true :=
      fun c hc => List.mem_takeWhile_imp hc
    unfold ofUnsigned? Digits.span at h
    dsimp only at h
    split at h
    · cases h
    · next hne =>
      -- what is behind the digits: nothing, a point, or something else
      split at h
      · next hrest =>
        rw [hrest, List.append_nil] at hcs
        rw [hcs] at h hne hwhole
        obtain ⟨k, hk, rfl⟩ := Option.map_eq_some_iff.mp h
        obtain ⟨hshort, hk⟩ := Option.ite_none_right_eq_some.mp hk
        cases hk
        exact .whole ⟨hne, hwhole⟩ hshort
      · next fraction hrest =>
        obtain ⟨⟨hne', hall⟩, hn⟩ := Option.ite_none_right_eq_some.mp h
        cases hn
        rw [hrest] at hcs
        have hpoint : Written negative (cs.takeWhile Char.isDigit ++ '.' :: fraction) _ :=
          .point ⟨hne, hwhole⟩ ⟨hne', List.all_eq_true.mp hall⟩
        rwa [hcs] at hpoint
      · cases h
  · rintro (⟨⟨hne, hdigits⟩, hshort⟩ | ⟨⟨hne, hwhole⟩, hne', hfraction⟩)
    · rw [ofUnsigned?_digits hne hdigits, Digits.toNat?, if_pos hshort]
      rfl
    · rw [ofUnsigned?_point hne hwhole hne' hfraction]

/-- The same with a sign, which is a minus sign at the front. -/
theorem ofText?_eq_some_iff : ofText? cs = some n ↔
    Written false cs n ∨ ∃ rest, cs = '-' :: rest ∧ Written true rest n := by
  fun_cases ofText? cs with
  | case1 rest =>
    rw [ofUnsigned?_eq_some_iff]
    constructor
    · intro h
      exact .inr ⟨rest, rfl, h⟩
    · rintro (h | ⟨rest', hrest, h⟩)
      · -- a minus sign is no digit
        obtain ⟨c, tail, hc, hdigit⟩ := h.isNumber.head
        cases hc
        cases hdigit
      · cases hrest
        exact h
  | case2 _ hsign =>
    rw [ofUnsigned?_eq_some_iff]
    constructor
    · exact .inl
    · rintro (h | ⟨rest, hrest, -⟩)
      · exact h
      · exact absurd hrest (hsign rest)

/-- Texts of numbers without a sign: one digit up to the limit, or one and more on both sides
of a point. -/
def IsUnsigned (cs : List Char) : Prop :=
  IsDigits cs ∧ cs.length ≤ Digits.digitLimit ∨
    ∃ whole fraction, IsDigits whole ∧ IsDigits fraction ∧ cs = whole ++ '.' :: fraction

/-- Texts of numbers: at most a minus sign, and a number without a sign. -/
def IsNumeral (cs : List Char) : Prop :=
  IsUnsigned cs ∨ ∃ rest, cs = '-' :: rest ∧ IsUnsigned rest

theorem isUnsigned_iff (negative : Bool) : IsUnsigned cs ↔ ∃ n, Written negative cs n := by
  constructor
  · rintro (⟨hdigits, hshort⟩ | ⟨whole, fraction, hwhole, hfraction, rfl⟩)
    · exact ⟨_, .whole hdigits hshort⟩
    · exact ⟨_, .point hwhole hfraction⟩
  · rintro ⟨n, ⟨hdigits, hshort⟩ | ⟨hwhole, hfraction⟩⟩
    · exact .inl ⟨hdigits, hshort⟩
    · exact .inr ⟨_, _, hwhole, hfraction, rfl⟩

theorem isNumeral_iff : IsNumeral cs ↔ ∃ n, ofText? cs = some n := by
  constructor
  · rintro (h | ⟨rest, hrest, h⟩)
    · obtain ⟨n, hn⟩ := (isUnsigned_iff false).mp h
      exact ⟨n, ofText?_eq_some_iff.mpr (.inl hn)⟩
    · obtain ⟨n, hn⟩ := (isUnsigned_iff true).mp h
      exact ⟨n, ofText?_eq_some_iff.mpr (.inr ⟨rest, hrest, hn⟩)⟩
  · rintro ⟨n, h⟩
    obtain hn | ⟨rest, hrest, hn⟩ := ofText?_eq_some_iff.mp h
    · exact .inl ((isUnsigned_iff false).mpr ⟨n, hn⟩)
    · exact .inr ⟨rest, hrest, (isUnsigned_iff true).mpr ⟨n, hn⟩⟩

/-! ### Numbers that are printed -/

theorem written_ofNat {k : Nat} (h : k < 10 ^ Digits.digitLimit) (negative : Bool) :
    Written negative (Digits.ofNat k) (.int (if negative then -(k : Int) else k)) := by
  have hlength : (Digits.ofNat k).length ≤ Digits.digitLimit :=
    Nat.toDigits_length 10 k Digits.digitLimit Digits.digitLimit_pos h
  have hwhole : Written negative (Digits.ofNat k) _ :=
    .whole (Template.isDigits_ofNat k) hlength
  rwa [Template.toNat_ofNat] at hwhole

/-- What is printed for a whole number is read as the number. -/
theorem ofText?_ofInt {i : Int} (h : i.natAbs < 10 ^ Digits.digitLimit) :
    ofText? (Digits.ofInt i) = some (.int i) := by
  rw [ofText?_eq_some_iff, Digits.ofInt]
  by_cases hneg : i < 0
  · have hwritten := written_ofNat h true
    rw [if_pos rfl, show -(i.natAbs : Int) = i by omega] at hwritten
    rw [if_pos hneg]
    exact .inr ⟨_, rfl, hwritten⟩
  · have hwritten := written_ofNat h false
    rw [if_neg Bool.false_ne_true, show (i.natAbs : Int) = i by omega] at hwritten
    rw [if_neg hneg]
    exact .inl hwritten

end Number

namespace Value

open Number (IsNumeral)

theorem toText_int_of_lt {i : Int} (h : i.natAbs < 10 ^ Digits.digitLimit) :
    toText (.int i) = .ok (String.ofList (Digits.ofInt i)) :=
  toText_int (if_pos h)

theorem toText_int_of_le {i : Int} (h : 10 ^ Digits.digitLimit ≤ i.natAbs) :
    toText (.int i) = .error (.error .numberTooLarge) := by
  have hnone : Digits.text? i = none := if_neg (Nat.not_lt.mpr h)
  rw [toText, toText.wholeText, hnone]

/-- **Whole numbers survive the way through text.**  A whole number has a text exactly when it
has no more digits than the limit, whatever its sign, and its text is read as the number; any
other is refused.  A text is read as a number exactly when all of it is one, and refused
otherwise. -/
theorem toNumber_toText :
    (∀ i : Int,
      ((∃ t, toText (.int i) = .ok t) ↔ i.natAbs < 10 ^ Digits.digitLimit) ∧
      (toText (.int i) = .error (.error .numberTooLarge) ↔
        10 ^ Digits.digitLimit ≤ i.natAbs) ∧
      ∀ t, toText (.int i) = .ok t → toNumber (.text t) = .ok (.int i)) ∧
    ∀ s : String,
      ((∃ n, toNumber (.text s) = .ok n) ↔ IsNumeral s.toList) ∧
      (toNumber (.text s) = .error (.error (.unreadableNumber (Quoted.quote s))) ↔
        ¬ IsNumeral s.toList) := by
  constructor
  · intro i
    by_cases h : i.natAbs < 10 ^ Digits.digitLimit
    · have htext := toText_int_of_lt h
      refine ⟨⟨fun _ => h, fun _ => ⟨_, htext⟩⟩, ?_, ?_⟩
      · rw [htext]
        simp [h]
      · intro t ht
        rw [htext] at ht
        cases ht
        rw [toNumber, String.toList_ofList, Number.ofText?_ofInt h]
    · have htext := toText_int_of_le (Nat.le_of_not_lt h)
      rw [htext]
      simp [h, Nat.le_of_not_lt h]
  · intro s
    rw [Number.isNumeral_iff, toNumber]
    cases hread : Number.ofText? s.toList with
    | none => simp
    | some n => simp

/-- A negative number there and back, digits behind a sign and zeros, and a sign that is not a
minus sign. -/
theorem toNumber_toText_signs :
    (toText (.int (-120)) = .ok "-120" ∧ toNumber (.text "-120") = .ok (.int (-120))) ∧
    (IsNumeral "-00.50".toList ∧ ∃ n, toNumber (.text "-00.50") = .ok n) ∧
    ¬ IsNumeral "+1".toList ∧
      toNumber (.text "+1") = .error (.error (.unreadableNumber (Quoted.quote "+1"))) := by
  have hlimit : (-120 : Int).natAbs < 10 ^ Digits.digitLimit := by
    have hthree : 3 ≤ Digits.digitLimit := by
      rw [Digits.digitLimit]
      decide
    calc (-120 : Int).natAbs < 10 ^ 3 := by decide
      _ ≤ 10 ^ Digits.digitLimit := Nat.pow_le_pow_right (by decide) hthree
  have htext : toText (.int (-120)) = .ok "-120" := toText_int_of_lt hlimit
  have hnumeral : IsNumeral "-00.50".toList :=
    .inr ⟨"00.50".toList, rfl, .inr ⟨['0', '0'], ['5', '0'], by simp [Template.IsDigits],
      by simp [Template.IsDigits], rfl⟩⟩
  have hplus : ¬ IsNumeral "+1".toList := by
    rw [Number.isNumeral_iff]
    rintro ⟨n, hn⟩
    cases hn
  refine ⟨⟨htext, ?_⟩, ⟨hnumeral, ?_⟩, hplus, ?_⟩
  · exact (toNumber_toText.1 (-120)).2.2 "-120" htext
  · exact (toNumber_toText.2 "-00.50").1.mpr hnumeral
  · exact (toNumber_toText.2 "+1").2.mpr hplus

end Value

end Interpolation
