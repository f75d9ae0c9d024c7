/-
Reading numbers written in decimal.

* `ofUnsigned?_digits` — a run of digits is a whole number;
* `ofUnsigned?_point` — two runs with a point between them are a floating-point number.

Design notes: digits alone stand for a whole number, digits with a point between
them for a floating-point number.  Exponents, signs other than a leading minus,
and white space are not accepted.
-/
import Interpolation.Number
import Interpolation.Number.Digits

namespace Interpolation.Number

/-- The number written without a sign; the sign is applied to its value. -/
def ofUnsigned? (negative : Bool) (cs : List Char) : Option Number :=
  let (whole, rest) := Digits.span cs
  if whole = [] then none
  else
    match rest with
    | [] => (Digits.toNat? whole).map fun (n : Nat) => .int (if negative then -(n : Int) else n)
    | '.' :: fraction =>
      if fraction ≠ [] ∧ fraction.all Char.isDigit then
        some (.float (Binary64.ofDecimal negative (Digits.toNat (whole ++ fraction))
          (-(fraction.length : Int))))
      else none
    | _ => none

/-- The number written in a text, which may begin with a minus sign. -/
def ofText? : List Char → Option Number
  | '-' :: cs => ofUnsigned? true cs
  | cs => ofUnsigned? false cs

theorem span_digits {cs : List Char} (h : ∀ c ∈ cs, c.isDigit = true) :
    Digits.span cs = (cs, []) := by
  induction cs with
  | nil => rfl
  | cons c cs ih =>
    obtain ⟨hc, hcs⟩ := List.forall_mem_cons.mp h
    have ih := ih hcs
    simp only [Digits.span, Prod.mk.injEq] at ih
    simp [Digits.span, hc, ih.1, ih.2]

theorem span_point {whole : List Char} (h : ∀ c ∈ whole, c.isDigit = true)
    (fraction : List Char) :
    Digits.span (whole ++ '.' :: fraction) = (whole, '.' :: fraction) := by
  rw [Digits.span, List.takeWhile_append_of_pos h, List.dropWhile_append_of_pos h,
    List.takeWhile_cons_of_neg (by decide), List.dropWhile_cons_of_neg (by decide),
    List.append_nil]

theorem ofUnsigned?_digits {cs : List Char} (hne : cs ≠ [])
    (h : ∀ c ∈ cs, c.isDigit = true) (negative : Bool) :
    ofUnsigned? negative cs =
      (Digits.toNat? cs).map fun (n : Nat) => .int (if negative then -(n : Int) else n) := by
  simp [ofUnsigned?, span_digits h, hne]

theorem ofUnsigned?_point {whole fraction : List Char} (hne : whole ≠ [])
    (h : ∀ c ∈ whole, c.isDigit = true) (hne' : fraction ≠ [])
    (h' : ∀ c ∈ fraction, c.isDigit = true) (negative : Bool) :
    ofUnsigned? negative (whole ++ '.' :: fraction) =
      some (.float (Binary64.ofDecimal negative (Digits.toNat (whole ++ fraction))
        (-(fraction.length : Int)))) := by
  have hall : fraction.all Char.isDigit = true := List.all_eq_true.mpr h'
  simp [ofUnsigned?, span_point h, hne, hne', hall]

end Interpolation.Number
