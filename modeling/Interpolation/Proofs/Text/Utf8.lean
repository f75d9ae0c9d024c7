/-
ASCII bytes stand for themselves, in text that is encoded and in bytes that are decoded.

* `mem_encode_iff`, `getLast?_encode` — an ASCII byte is in an encoded text, or at its
  end, exactly when its character is in the text, or at its end;
* `decode_append_start`, `decode_append_ascii` — decoding can be done in parts where a start
  byte stands between them, whatever the bytes before it are;
* `isStart_of_head_encode` — an encoded text begins with a start byte;
* `lineFeed_mem_decode` — a line feed comes from a line feed only;
* `length_decode_le` — there are no more characters than bytes;
* `decode_ascii`, `encode_decode_ascii` — bytes that are all ASCII are decoded one by one and
  without loss.

Design notes: no byte of a longer sequence is ASCII, neither the first nor one that
continues it.  A start byte is one that continues no sequence, which goes for an ASCII byte
and for the first byte of a longer sequence.  A sequence that breaks off before a start byte is
broken whatever comes after it, and decoding starts afresh at that byte.
-/
import Interpolation.Text.Utf8
import Mathlib.Algebra.Ring.Nat
import Mathlib.Data.List.Basic

namespace Interpolation.Utf8

/-! ### Encoding -/

theorem le_ofNat {n : Nat} (h : 0x80 ≤ n) (h' : n < 0x100) : 0x80 ≤ UInt8.ofNat n := by
  rw [UInt8.le_iff_toNat_le, UInt8.toNat_ofNat', Nat.mod_eq_of_lt h']
  exact h

/-- A character is written as its code in one byte, or in bytes that are not ASCII. -/
theorem utf8EncodeChar_cases (c : Char) :
    (c.toNat < 0x80 ∧ String.utf8EncodeChar c = [UInt8.ofNat c.toNat]) ∨
      ∀ b ∈ String.utf8EncodeChar c, 0x80 ≤ b := by
  fun_cases String.utf8EncodeChar c with
  | case1 v h => exact .inl ⟨Nat.lt_succ_of_le h, rfl⟩
  | case2 v _ h =>
    right
    simp only [List.forall_mem_cons, List.not_mem_nil, false_imp_iff, implies_true, and_true]
    exact ⟨le_ofNat (by omega) (by omega), le_ofNat (by omega) (by omega)⟩
  | case3 v _ _ h =>
    right
    simp only [List.forall_mem_cons, List.not_mem_nil, false_imp_iff, implies_true, and_true]
    exact ⟨le_ofNat (by omega) (by omega), le_ofNat (by omega) (by omega),
      le_ofNat (by omega) (by omega)⟩
  | case4 v _ _ _ =>
    right
    simp only [List.forall_mem_cons, List.not_mem_nil, false_imp_iff, implies_true, and_true]
    exact ⟨le_ofNat (by omega) (by omega), le_ofNat (by omega) (by omega),
      le_ofNat (by omega) (by omega), le_ofNat (by omega) (by omega)⟩

theorem length_encode (cs : List Char) : (encode cs).length = byteLength cs := by
  induction cs with
  | nil => rfl
  | cons c cs ih =>
    rw [encode_cons, List.length_append, String.length_utf8EncodeChar, byteLength_cons, ih]

/-- A byte of a character that is ASCII is the whole character. -/
theorem utf8EncodeChar_of_mem {b : UInt8} (hb : b < 0x80) {c : Char}
    (h : b ∈ String.utf8EncodeChar c) :
    c = Char.ofNat b.toNat ∧ String.utf8EncodeChar c = [b] := by
  rcases utf8EncodeChar_cases c with ⟨hc, heq⟩ | hhigh
  · rw [heq] at h ⊢
    obtain rfl := List.mem_singleton.mp h
    have hcode : (UInt8.ofNat c.toNat).toNat = c.toNat := by
      rw [UInt8.toNat_ofNat', Nat.mod_eq_of_lt (by omega)]
    exact ⟨by rw [hcode, Char.ofNat_toNat], rfl⟩
  · exact absurd (hhigh b h) (by simpa using hb)

/-- The code of a character that is given by its code. -/
theorem ofNat_code {n : Nat} (h : n.isValidChar) : (Char.ofNat n).toNat = n := by
  rw [Char.ofNat, dif_pos h]
  exact UInt32.toNat_ofNatLT

theorem utf8EncodeChar_ofNat {b : UInt8} (hb : b < 0x80) :
    String.utf8EncodeChar (Char.ofNat b.toNat) = [b] := by
  have hlt : b.toNat < 0x80 := UInt8.lt_iff_toNat_lt.mp hb
  have hcode : (Char.ofNat b.toNat).toNat = b.toNat := ofNat_code (.inl (by omega))
  have hval : (Char.ofNat b.toNat).val.toNat ≤ 0x7F := by
    have heq : (Char.ofNat b.toNat).val.toNat = (Char.ofNat b.toNat).toNat := rfl
    omega
  rw [String.utf8EncodeChar, if_pos hval]
  exact congrArg (fun n => [n]) ((congrArg UInt8.ofNat hcode).trans UInt8.ofNat_toNat)

theorem mem_encode_iff {b : UInt8} (hb : b < 0x80) {cs : List Char} :
    b ∈ encode cs ↔ Char.ofNat b.toNat ∈ cs := by
  unfold encode
  rw [List.mem_flatMap]
  constructor
  · rintro ⟨c, hc, h⟩
    exact (utf8EncodeChar_of_mem hb h).1 ▸ hc
  · intro h
    exact ⟨_, h, by rw [utf8EncodeChar_ofNat hb]; exact List.mem_singleton_self b⟩

theorem getLast?_encode {b : UInt8} (hb : b < 0x80) {cs : List Char} :
    (encode cs).getLast? = some b ↔ cs.getLast? = some (Char.ofNat b.toNat) := by
  rcases List.eq_nil_or_concat cs with rfl | ⟨before, c, rfl⟩
  · simp
  · have hlast : (encode (before ++ [c])).getLast? = (String.utf8EncodeChar c).getLast? := by
      rw [encode_append, encode_cons, encode_nil, List.append_nil]
      exact List.getLast?_append_of_ne_nil _ (by simp [String.utf8EncodeChar_ne_nil])
    rw [List.concat_eq_append, hlast, List.getLast?_concat, Option.some.injEq]
    constructor
    · intro h
      exact (utf8EncodeChar_of_mem hb (List.mem_of_getLast? h)).1
    · rintro rfl
      rw [utf8EncodeChar_ofNat hb]
      rfl

/-! ### Decoding in parts -/

theorem between_iff {lo hi b : UInt8} :
    between lo hi b = true ↔ lo.toNat ≤ b.toNat ∧ b.toNat ≤ hi.toNat := by
  simp [between, UInt8.le_iff_toNat_le]

theorem between_eq_false {lo hi b : UInt8} (h : b < lo) : between lo hi b = false := by
  have hlo : ¬ lo ≤ b := UInt8.not_le.mpr h
  simp [between, hlo]

/-- What continues a sequence is a byte of `0x80` to `0xBF`. -/
theorem continuations_bounds {b : UInt8} {expected : List (UInt8 × UInt8)}
    (h : continuations b = some expected) :
    ∀ bounds ∈ expected, 0x80 ≤ bounds.1 ∧ bounds.2 ≤ 0xBF := by
  revert h
  fun_cases continuations b <;> rintro ⟨⟩ <;> simp

theorem next_eq_gather {b : UInt8} {expected : List (UInt8 × UInt8)}
    (h : continuations b = some expected) (rest : List UInt8) :
    next b rest = ((gather (leadBits b) expected rest).1.elim replacement Char.ofNat,
      (gather (leadBits b) expected rest).2) := by
  simp only [next, h]
  rcases gather (leadBits b) expected rest with ⟨code | _, left⟩ <;> rfl

/-- A byte that no sequence continues with. -/
def IsStart (b : UInt8) : Prop :=
  ∀ lo hi : UInt8, 0x80 ≤ lo → hi ≤ 0xBF → between lo hi b = false

theorem isStart_of_lt {b : UInt8} (h : b < 0x80) : IsStart b := by
  intro lo hi hlo _
  exact between_eq_false (UInt8.lt_of_lt_of_le h hlo)

theorem isStart_of_le {b : UInt8} (h : 0xC0 ≤ b) : IsStart b := by
  intro lo hi _ hhi
  have hlt : hi < b := UInt8.lt_of_le_of_lt hhi (UInt8.lt_of_lt_of_le (by decide) h)
  have hnot : ¬ b ≤ hi := UInt8.not_le.mpr hlt
  simp [between, hnot]

section Parts

variable {y : UInt8}

/-- A sequence breaks off at a start byte at the latest. -/
theorem gather_append_start (hy : IsStart y) (tail : List UInt8) (code : Nat)
    {expected : List (UInt8 × UInt8)}
    (hbounds : ∀ bounds ∈ expected, 0x80 ≤ bounds.1 ∧ bounds.2 ≤ 0xBF) (rest : List UInt8) :
    gather code expected (rest ++ y :: tail) =
      ((gather code expected rest).1, (gather code expected rest).2 ++ y :: tail) := by
  fun_induction gather code expected rest with
  | case1 => rfl
  | case2 code bounds more =>
    obtain ⟨hlo, hhi⟩ := hbounds bounds List.mem_cons_self
    simp [gather, hy bounds.1 bounds.2 hlo hhi]
  | case3 code lo hi more b rest h ih =>
    have hmore := ih fun bounds hmem => hbounds bounds (List.mem_cons_of_mem _ hmem)
    simpa [gather, h] using hmore
  | case4 code lo hi more b rest h => simp [gather, h]

theorem next_append_start (hy : IsStart y) (b : UInt8) (rest tail : List UInt8) :
    next b (rest ++ y :: tail) = ((next b rest).1, (next b rest).2 ++ y :: tail) := by
  cases h : continuations b with
  | none => simp [next, h]
  | some expected =>
    rw [next_eq_gather h, next_eq_gather h,
      gather_append_start hy tail (leadBits b) (continuations_bounds h) rest]

/-- **Decoding starts afresh at a start byte**, even after bytes that break off. -/
theorem decode_append_start (hy : IsStart y) (a b : List UInt8) :
    decode (a ++ y :: b) = decode a ++ decode (y :: b) := by
  fun_induction decode a with
  | case1 => simp
  | case2 x rest ih =>
    -- whatever the first character takes of `a`, what it leaves ends where `a` did
    rw [List.cons_append, decode_cons, next_append_start hy, ih, List.cons_append]

variable (hy : y < 0x80)
include hy

theorem next_ascii (rest : List UInt8) : next y rest = (Char.ofNat y.toNat, rest) := by
  simp [next, continuations, leadBits, gather, hy]

/-- An ASCII byte is decoded to its own character. -/
theorem decode_append_ascii (a b : List UInt8) :
    decode (a ++ y :: b) = decode a ++ Char.ofNat y.toNat :: decode b := by
  rw [decode_append_start (isStart_of_lt hy), decode_cons, next_ascii hy]

end Parts

/-- A first byte of more than one. -/
theorem isStart_ofNat {n : Nat} (h : 0xC0 ≤ n) (h' : n < 0x100) : IsStart (UInt8.ofNat n) := by
  apply isStart_of_le
  rw [UInt8.le_iff_toNat_le, UInt8.toNat_ofNat', Nat.mod_eq_of_lt h']
  exact h

/-- A character begins with a start byte. -/
theorem utf8EncodeChar_start (c : Char) :
    ∃ b tail, String.utf8EncodeChar c = b :: tail ∧ IsStart b := by
  fun_cases String.utf8EncodeChar c with
  | case1 v h =>
    refine ⟨_, _, rfl, isStart_of_lt ?_⟩
    have hlt : v < 0x80 := Nat.lt_succ_of_le h
    rw [UInt8.lt_iff_toNat_lt, UInt8.toNat_ofNat', Nat.mod_eq_of_lt (by omega)]
    exact hlt
  | case2 v _ h => exact ⟨_, _, rfl, isStart_ofNat (by omega) (by omega)⟩
  | case3 v _ _ h => exact ⟨_, _, rfl, isStart_ofNat (by omega) (by omega)⟩
  | case4 v _ _ _ => exact ⟨_, _, rfl, isStart_ofNat (by omega) (by omega)⟩

theorem isStart_of_head_encode {cs : List Char} {b : UInt8}
    (h : (encode cs).head? = some b) : IsStart b := by
  cases cs with
  | nil => cases h
  | cons c cs =>
    obtain ⟨first, tail, hc, hstart⟩ := utf8EncodeChar_start c
    rw [encode_cons, hc] at h
    obtain rfl := Option.some.inj h
    exact hstart

/-! ### Characters that come from their own byte -/

/-- The payload of the byte that comes second is no less than that of its lower bound. -/
theorem payload_le {lo hi b : UInt8} (h : between lo hi b = true) (hlo : 0x80 ≤ lo)
    (hhi : hi ≤ 0xBF) : lo.toNat % 0x40 ≤ b.toNat % 0x40 := by
  have hlow : 0x80 ≤ lo.toNat := UInt8.le_iff_toNat_le.mp hlo
  have hhigh : hi.toNat ≤ 0xBF := UInt8.le_iff_toNat_le.mp hhi
  have hb := between_iff.mp h
  omega

theorem leadBits_two {b : UInt8} (h : between 0xC2 0xDF b = true) : 2 ≤ leadBits b := by
  have hb : 0xC2 ≤ b.toNat ∧ b.toNat ≤ 0xDF := between_iff.mp h
  have hascii : ¬ b < 0x80 := UInt8.not_lt.mpr (UInt8.le_iff_toNat_le.mpr (by simp; omega))
  have htwo : b < 0xE0 := UInt8.lt_iff_toNat_lt.mpr (by simp; omega)
  rw [leadBits, if_neg hascii, if_pos htwo]
  omega

theorem leadBits_pos {b : UInt8}
    (h : between 0xE1 0xEF b = true ∨ between 0xF1 0xF3 b = true) : 1 ≤ leadBits b := by
  rw [between_iff, between_iff] at h
  simp only [leadBits, UInt8.lt_iff_toNat_lt, UInt8.reduceToNat] at h ⊢
  split
  · omega
  · split
    · omega
    · split
      · omega
      · omega

/-- The least that a sequence of several bytes can stand for is not ASCII. -/
theorem continuations_code {b lo hi : UInt8} {more : List (UInt8 × UInt8)}
    (h : continuations b = some ((lo, hi) :: more)) :
    hi ≤ 0xBF ∧ 0x80 ≤ (leadBits b * 0x40 + lo.toNat % 0x40) * 0x40 ^ more.length := by
  revert h
  fun_cases continuations b with
  | case1 => rintro ⟨⟩
  | case2 _ hb =>
    rintro ⟨⟩
    have hbits := leadBits_two hb
    exact ⟨by decide, by simp; omega⟩
  | case3 _ _ hb => rintro ⟨⟩; subst hb; decide
  | case4 _ _ _ hb => rintro ⟨⟩; subst hb; decide
  | case5 _ _ _ _ hb =>
    rintro ⟨⟩
    have hbits := leadBits_pos (.inl hb)
    exact ⟨by decide, by simp; omega⟩
  | case6 _ _ _ _ _ hb => rintro ⟨⟩; subst hb; decide
  | case7 _ _ _ _ _ _ hb => rintro ⟨⟩; subst hb; decide
  | case8 _ _ _ _ _ _ _ hb =>
    rintro ⟨⟩
    have hbits := leadBits_pos (.inr hb)
    exact ⟨by decide, by simp; omega⟩
  | case9 => rintro ⟨⟩

/-- Gathering more bytes only shifts the code up. -/
theorem le_gather {code : Nat} {expected : List (UInt8 × UInt8)} {rest left : List UInt8}
    {n : Nat} (h : gather code expected rest = (some n, left)) :
    code * 0x40 ^ expected.length ≤ n := by
  fun_induction gather code expected rest with
  | case1 code rest =>
    obtain rfl : code = n := Option.some.inj (Prod.mk.inj h).1
    exact Nat.le_of_eq (Nat.mul_one code)
  | case2 => cases h
  | case3 code lo hi more b rest _ ih =>
    calc code * 0x40 ^ (more.length + 1)
        = code * 0x40 * 0x40 ^ more.length := by rw [Nat.pow_succ', Nat.mul_assoc]
      _ ≤ (code * 0x40 + b.toNat % 0x40) * 0x40 ^ more.length :=
          Nat.mul_le_mul_right _ (Nat.le_add_right _ _)
      _ ≤ n := ih h
  | case4 => cases h

theorem gather_code {b lo hi : UInt8} {more : List (UInt8 × UInt8)} {rest left : List UInt8}
    {n : Nat} (hb : continuations b = some ((lo, hi) :: more))
    (h : gather (leadBits b) ((lo, hi) :: more) rest = (some n, left)) : 0x80 ≤ n := by
  obtain ⟨hhi, hcode⟩ := continuations_code hb
  cases rest with
  | nil => cases h
  | cons x rest =>
    rw [gather] at h
    split at h
    · next hbetween =>
      -- the least second byte decides, so an overlong sequence is ruled out here
      have hpayload := payload_le hbetween (continuations_bounds hb _ List.mem_cons_self).1 hhi
      calc 0x80 ≤ (leadBits b * 0x40 + lo.toNat % 0x40) * 0x40 ^ more.length := hcode
        _ ≤ (leadBits b * 0x40 + x.toNat % 0x40) * 0x40 ^ more.length :=
            Nat.mul_le_mul_right _ (Nat.add_le_add_left hpayload _)
        _ ≤ n := le_gather h
    · cases h

/-- A code that stands for a character other than the zero character is its code. -/
theorem code_of_ofNat {n : Nat} {c : Char} (hc : c ≠ '\x00') (h : Char.ofNat n = c) :
    n = c.toNat := by
  by_cases hn : n.isValidChar
  · rw [← h, ofNat_code hn]
  · rw [Char.ofNat, dif_neg hn] at h
    exact absurd h.symm hc

theorem continuations_ne_nil {b : UInt8} (hb : ¬ b < 0x80) : continuations b ≠ some [] := by
  fun_cases continuations b with
  | case1 h => exact absurd h hb
  | _ => simp

/-- A line feed is decoded from its byte only. -/
theorem next_eq_lineFeed {b : UInt8} {rest : List UInt8} (h : (next b rest).1 = '\n') :
    b = 0x0A := by
  by_cases hascii : b < 0x80
  · rw [next_ascii hascii] at h
    exact UInt8.toNat_inj.mp (code_of_ofNat (by decide) h)
  · cases hb : continuations b with
    | none => simp [next, hb, replacement] at h
    | some expected =>
      rw [next_eq_gather hb] at h
      rcases hgather : gather (leadBits b) expected rest with ⟨_ | n, left⟩
      · simp [hgather, replacement] at h
      · rw [hgather] at h
        obtain rfl := code_of_ofNat (by decide) h
        rcases expected with _ | ⟨⟨lo, hi⟩, more⟩
        · exact absurd hb (continuations_ne_nil hascii)
        · exact absurd (gather_code hb hgather) (by decide)

theorem gather_suffix (code : Nat) (expected : List (UInt8 × UInt8)) (rest : List UInt8) :
    (gather code expected rest).2 <:+ rest := by
  fun_induction gather code expected rest with
  | case1 => exact List.suffix_rfl
  | case2 => exact List.suffix_rfl
  | case3 code lo hi more b rest _ ih => exact ih.trans (List.suffix_cons b rest)
  | case4 => exact List.suffix_rfl

theorem next_suffix (b : UInt8) (rest : List UInt8) : (next b rest).2 <:+ rest := by
  cases h : continuations b with
  | none => simp [next, h]
  | some expected => rw [next_eq_gather h]; exact gather_suffix _ _ _

theorem lineFeed_mem_decode {bytes : List UInt8} : '\n' ∈ decode bytes ↔ 0x0A ∈ bytes := by
  constructor
  · intro h
    fun_induction decode bytes with
    | case1 => cases h
    | case2 b rest ih =>
      rcases List.mem_cons.mp h with hfirst | hlater
      · rw [next_eq_lineFeed hfirst.symm]
        exact List.mem_cons_self
      · exact List.mem_cons_of_mem _ ((next_suffix b rest).mem (ih hlater))
  · intro h
    obtain ⟨a, b, rfl⟩ := List.append_of_mem h
    rw [decode_append_ascii (by decide)]
    exact List.mem_append_right _ List.mem_cons_self

/-- Each character takes at least one byte, a replacement too. -/
theorem length_decode_le (bytes : List UInt8) : (decode bytes).length ≤ bytes.length := by
  fun_induction decode bytes with
  | case1 => exact Nat.le_refl 0
  | case2 b rest ih =>
    have hleft := next_length b rest
    rw [List.length_cons, List.length_cons]
    omega

/-! ### Text that is ASCII throughout -/

theorem decode_ascii {bytes : List UInt8} (h : ∀ b ∈ bytes, b < 0x80) :
    decode bytes = bytes.map fun b => Char.ofNat b.toNat := by
  induction bytes with
  | nil => exact decode_nil
  | cons b rest ih =>
    obtain ⟨hb, hrest⟩ := List.forall_mem_cons.mp h
    rw [decode_cons, next_ascii hb, ih hrest, List.map_cons]

theorem lt_of_mem_encode {cs : List Char} (h : ∀ c ∈ cs, c.toNat < 0x80) :
    ∀ b ∈ encode cs, b < 0x80 := by
  intro b hb
  obtain ⟨c, hc, hb⟩ := List.mem_flatMap.mp hb
  have hcode := h c hc
  have hval : c.val.toNat ≤ 0x7F := Nat.le_of_lt_succ hcode
  have hencode : String.utf8EncodeChar c = [UInt8.ofNat c.toNat] := by
    rw [String.utf8EncodeChar, if_pos hval]
    rfl
  rw [hencode] at hb
  rw [List.mem_singleton.mp hb, UInt8.lt_iff_toNat_lt, UInt8.toNat_ofNat',
    Nat.mod_eq_of_lt (by omega)]
  exact hcode

theorem encode_decode_ascii {bytes : List UInt8} (h : ∀ b ∈ bytes, b < 0x80) :
    encode (decode bytes) = bytes := by
  induction bytes with
  | nil => simp
  | cons b rest ih =>
    obtain ⟨hb, hrest⟩ := List.forall_mem_cons.mp h
    rw [decode_cons, next_ascii hb, encode_cons, utf8EncodeChar_ofNat hb, ih hrest,
      List.singleton_append]

end Interpolation.Utf8
