/-
Sets of characters given by ranges of code points.

* `CharSet.contains_iff` — when the ranges are in order, a character belongs to
  the set exactly when one of the ranges covers its code point.

Design notes: membership walks the ranges from the lowest and stops at the
first one that starts beyond the character, so the common low code points are
decided at once.
-/
namespace Interpolation

/-- A set of characters: inclusive ranges of code points in increasing order. -/
structure CharSet where
  ranges : List (Nat × Nat)

namespace CharSet

/-- Whether a code point lies in one of the ranges. -/
def covers : List (Nat × Nat) → Nat → Bool
  | [], _ => false
  | (lo, hi) :: rest, n => if n < lo then false else n ≤ hi || covers rest n

/-- Membership of a character. -/
def contains (s : CharSet) (c : Char) : Bool :=
  covers s.ranges c.toNat

/-- The ranges are increasing when each starts beyond every earlier start. -/
def Ordered (ranges : List (Nat × Nat)) : Prop :=
  ranges.Pairwise fun a b => a.1 ≤ b.1

theorem covers_iff {ranges : List (Nat × Nat)} (h : Ordered ranges) (n : Nat) :
    covers ranges n = true ↔ ∃ r ∈ ranges, r.1 ≤ n ∧ n ≤ r.2 := by
  induction ranges with
  | nil => simp [covers]
  | cons r rest ih =>
    obtain ⟨lo, hi⟩ := r
    obtain ⟨hlo, hrest⟩ := List.pairwise_cons.mp h
    rw [covers]
    split
    · next hn =>
      simp only [Bool.false_eq_true, false_iff, not_exists, not_and]
      intro r hr hle
      rcases List.mem_cons.mp hr with rfl | hr
      · exact absurd hle (Nat.not_le.mpr hn)
      · exact absurd (Nat.le_trans (hlo r hr) hle) (Nat.not_le.mpr hn)
    · next hn =>
      have hle : lo ≤ n := Nat.not_lt.mp hn
      simp [ih hrest, hle]

theorem contains_iff {s : CharSet} (h : Ordered s.ranges) (c : Char) :
    s.contains c = true ↔ ∃ r ∈ s.ranges, r.1 ≤ c.toNat ∧ c.toNat ≤ r.2 :=
  covers_iff h c.toNat

end CharSet

end Interpolation
