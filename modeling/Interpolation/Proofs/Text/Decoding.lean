/-
Encoded text is decoded without loss.

* `next_encode` — the first character that is decoded is the one that was encoded first,
  and its bytes are used up;
* `decode_encode` — what is encoded and decoded again is the same text;
* `decode_append_char` — the bytes of a character are decoded to it among any others.

Design notes: the payload of a character's bytes are the digits of its code to the base 64,
the first byte holding the leading one.  What a byte may be after a given first byte keeps
out overlong sequences and codes that stand for no character; an encoded character is
neither, which is where the bounds on its code come in.
-/
import Interpolation.Proofs.Text.Utf8

namespace Interpolation.Utf8

/-- The byte that holds a digit of a code behind the first byte. -/
def tailByte (digit : Nat) : UInt8 :=
  UInt8.ofNat (digit + 0x80)

theorem toNat_ofNat {n : Nat} (h : n < 0x100) : (UInt8.ofNat n).toNat = n := by
  rw [UInt8.toNat_ofNat', Nat.mod_eq_of_lt h]

/-- A byte within its bounds adds its digit to the code. -/
theorem gather_tailByte {lo hi : UInt8} {digit : Nat} (hdigit : digit < 0x40)
    (hlo : lo.toNat ≤ digit + 0x80) (hhi : digit + 0x80 ≤ hi.toNat) (code : Nat)
    (more : List (UInt8 × UInt8)) (rest : List UInt8) :
    gather code ((lo, hi) :: more) (tailByte digit :: rest) =
      gather (code * 0x40 + digit) more rest := by
  have hnat : (tailByte digit).toNat = digit + 0x80 := toNat_ofNat (by omega)
  have hbetween : between lo hi (tailByte digit) = true := by
    rw [between_iff, hnat]
    exact ⟨hlo, hhi⟩
  rw [gather, if_pos hbetween, hnat, show (digit + 0x80) % 0x40 = digit by omega]

/-- The first character once its bytes have given its code. -/
theorem next_of_gather {b : UInt8} {expected : List (UInt8 × UInt8)} {rest left : List UInt8}
    {c : Char} (hb : continuations b = some expected)
    (h : gather (leadBits b) expected rest = (some c.toNat, left)) : next b rest = (c, left) := by
  rw [next_eq_gather hb, h]
  show (Char.ofNat c.toNat, left) = (c, left)
  rw [Char.ofNat_toNat]

/-! ### First bytes -/

/-- The first of two bytes. -/
theorem lead_two : ∀ n < 0x20, 2 ≤ n →
    continuations (UInt8.ofNat (n + 0xC0)) = some [(0x80, 0xBF)] ∧
      leadBits (UInt8.ofNat (n + 0xC0)) = n := by
  decide

/-- The first of three bytes: after the least one nothing overlong may follow, and after one
of them no code that is reserved for surrogates. -/
theorem lead_three : ∀ n < 0x10,
    continuations (UInt8.ofNat (n + 0xE0)) =
        some [(if n = 0 then 0xA0 else 0x80, if n = 13 then 0x9F else 0xBF), (0x80, 0xBF)] ∧
      leadBits (UInt8.ofNat (n + 0xE0)) = n := by
  decide

/-- The first of four bytes: after the last one nothing beyond the greatest code may follow. -/
theorem lead_four : ∀ n < 5,
    continuations (UInt8.ofNat (n + 0xF0)) =
        some [(if n = 0 then 0x90 else 0x80, if n = 4 then 0x8F else 0xBF), (0x80, 0xBF),
          (0x80, 0xBF)] ∧
      leadBits (UInt8.ofNat (n + 0xF0)) = n := by
  decide

/-! ### Characters -/

section

variable {c : Char}

theorem next_two (hlow : 0x80 ≤ c.toNat) (hhigh : c.toNat ≤ 0x7FF) (rest : List UInt8) :
    next (UInt8.ofNat (c.toNat / 64 % 32 + 0xC0)) (tailByte (c.toNat % 64) :: rest) =
      (c, rest) := by
  obtain ⟨hexpected, hbits⟩ := lead_two (c.toNat / 64 % 32) (by omega) (by omega)
  refine next_of_gather hexpected ?_
  rw [hbits, gather_tailByte (by omega) (by simp) (by simp; omega), gather,
    show c.toNat / 64 % 32 * 0x40 + c.toNat % 64 = c.toNat by omega]

theorem next_three (hlow : 0x800 ≤ c.toNat) (hhigh : c.toNat ≤ 0xFFFF) (rest : List UInt8) :
    next (UInt8.ofNat (c.toNat / 4096 % 16 + 0xE0))
      (tailByte (c.toNat / 64 % 64) :: tailByte (c.toNat % 64) :: rest) = (c, rest) := by
  -- the bounds on the second byte are met because the code is not that of a surrogate
  have hvalid : c.toNat < 0xD800 ∨ (0xDFFF < c.toNat ∧ c.toNat < 0x110000) := c.valid
  have hlo : (if c.toNat / 4096 % 16 = 0 then (0xA0 : UInt8) else 0x80).toNat ≤
      c.toNat / 64 % 64 + 0x80 := by
    split
    · simp; omega
    · simp
  have hhi : c.toNat / 64 % 64 + 0x80 ≤
      (if c.toNat / 4096 % 16 = 13 then (0x9F : UInt8) else 0xBF).toNat := by
    split
    · simp; omega
    · simp; omega
  obtain ⟨hexpected, hbits⟩ := lead_three (c.toNat / 4096 % 16) (by omega)
  refine next_of_gather hexpected ?_
  rw [hbits, gather_tailByte (by omega) hlo hhi,
    gather_tailByte (by omega) (by simp) (by simp; omega), gather,
    show (c.toNat / 4096 % 16 * 0x40 + c.toNat / 64 % 64) * 0x40 + c.toNat % 64 = c.toNat by
      omega]

theorem next_four (hlow : 0x10000 ≤ c.toNat) (rest : List UInt8) :
    next (UInt8.ofNat (c.toNat / 262144 % 8 + 0xF0))
      (tailByte (c.toNat / 4096 % 64) :: tailByte (c.toNat / 64 % 64) ::
        tailByte (c.toNat % 64) :: rest) = (c, rest) := by
  have hvalid : c.toNat < 0xD800 ∨ (0xDFFF < c.toNat ∧ c.toNat < 0x110000) := c.valid
  have hlo : (if c.toNat / 262144 % 8 = 0 then (0x90 : UInt8) else 0x80).toNat ≤
      c.toNat / 4096 % 64 + 0x80 := by
    split
    · simp; omega
    · simp
  have hhi : c.toNat / 4096 % 64 + 0x80 ≤
      (if c.toNat / 262144 % 8 = 4 then (0x8F : UInt8) else 0xBF).toNat := by
    split
    · simp; omega
    · simp; omega
  obtain ⟨hexpected, hbits⟩ := lead_four (c.toNat / 262144 % 8) (by omega)
  refine next_of_gather hexpected ?_
  rw [hbits, gather_tailByte (by omega) hlo hhi,
    gather_tailByte (by omega) (by simp) (by simp; omega),
    gather_tailByte (by omega) (by simp) (by simp; omega), gather,
    show ((c.toNat / 262144 % 8 * 0x40 + c.toNat / 4096 % 64) * 0x40 + c.toNat / 64 % 64) *
      0x40 + c.toNat % 64 = c.toNat by omega]

end

/-- **An encoded character is decoded from the front of what follows it.** -/
theorem next_encode (c : Char) (rest : List UInt8) :
    ∃ b tail, String.utf8EncodeChar c = b :: tail ∧ next b (tail ++ rest) = (c, rest) := by
  rw [String.utf8EncodeChar, show c.val.toNat = c.toNat from rfl]
  by_cases hone : c.toNat ≤ 0x7F
  · have hnat : (UInt8.ofNat c.toNat).toNat = c.toNat := toNat_ofNat (by omega)
    have hascii : UInt8.ofNat c.toNat < 0x80 := by
      rw [UInt8.lt_iff_toNat_lt, hnat]
      exact Nat.lt_succ_of_le hone
    refine ⟨_, [], by rw [if_pos hone], ?_⟩
    rw [List.nil_append, next_ascii hascii, hnat, Char.ofNat_toNat]
  by_cases htwo : c.toNat ≤ 0x7FF
  · exact ⟨_, [tailByte _], by rw [if_neg hone, if_pos htwo]; rfl,
      next_two (by omega) htwo rest⟩
  by_cases hthree : c.toNat ≤ 0xFFFF
  · exact ⟨_, [tailByte _, tailByte _], by rw [if_neg hone, if_neg htwo, if_pos hthree]; rfl,
      next_three (by omega) hthree rest⟩
  · exact ⟨_, [tailByte _, tailByte _, tailByte _],
      by rw [if_neg hone, if_neg htwo, if_neg hthree]; rfl, next_four (by omega) rest⟩

/-- **What is encoded and decoded again is the same text.** -/
theorem decode_encode (cs : List Char) : decode (encode cs) = cs := by
  induction cs with
  | nil => simp
  | cons c cs ih =>
    obtain ⟨b, tail, hbytes, hnext⟩ := next_encode c (encode cs)
    rw [encode_cons, hbytes, List.cons_append, decode_cons, hnext, ih]

/-- The bytes of a character are decoded to it, even where broken ones lead up to them. -/
theorem decode_append_char (a : List UInt8) (c : Char) (rest : List UInt8) :
    decode (a ++ (String.utf8EncodeChar c ++ rest)) = decode a ++ c :: decode rest := by
  obtain ⟨b, tail, hbytes, hnext⟩ := next_encode c rest
  have hhead : (encode [c]).head? = some b := by simp [hbytes]
  have hstart : IsStart b := isStart_of_head_encode hhead
  rw [hbytes, List.cons_append, decode_append_start hstart, decode_cons, hnext]

end Interpolation.Utf8
