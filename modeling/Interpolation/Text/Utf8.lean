/-
UTF-8: text to bytes and back, for bytes that need not be valid.

* `encode_append` — encoding works character by character;
* `decode_cons` — decoding takes one character off the front and goes on with
  what it leaves.

Design notes: a character is a Unicode scalar value, so that every text has bytes;
a lone surrogate is no character.  Decoding never fails.  Where the bytes do not
form a character, the longest run that could begin one is replaced by a single
U+FFFD and decoding resumes right after it, so a valid character that follows broken
bytes is kept.
-/
namespace Interpolation.Utf8

/-- The replacement character, which stands for bytes that form no character. -/
def replacement : Char := '\uFFFD'

/-- The bytes of a text. -/
def encode (cs : List Char) : List UInt8 :=
  cs.flatMap String.utf8EncodeChar

/-- Number of bytes of a text. -/
def byteLength : List Char → Nat
  | [] => 0
  | c :: cs => c.utf8Size + byteLength cs

@[simp] theorem encode_nil : encode [] = [] := rfl

@[simp] theorem encode_cons (c : Char) (cs : List Char) :
    encode (c :: cs) = String.utf8EncodeChar c ++ encode cs := rfl

theorem encode_append (a b : List Char) : encode (a ++ b) = encode a ++ encode b := by
  simp [encode]

@[simp] theorem byteLength_nil : byteLength [] = 0 := rfl

@[simp] theorem byteLength_cons (c : Char) (cs : List Char) :
    byteLength (c :: cs) = c.utf8Size + byteLength cs := rfl

theorem byteLength_append (a b : List Char) :
    byteLength (a ++ b) = byteLength a + byteLength b := by
  induction a with
  | nil => simp
  | cons c a ih => simp [ih, Nat.add_assoc]

/-- Whether a byte lies between two others. -/
def between (lo hi b : UInt8) : Bool :=
  lo ≤ b && b ≤ hi

/-- How a byte sequence continues after its first byte: for each following byte
the least and greatest value it may have. -/
def continuations (b : UInt8) : Option (List (UInt8 × UInt8)) :=
  if b < 0x80 then some []
  else if between 0xC2 0xDF b then some [(0x80, 0xBF)]
  else if b = 0xE0 then some [(0xA0, 0xBF), (0x80, 0xBF)]
  else if b = 0xED then some [(0x80, 0x9F), (0x80, 0xBF)]
  else if between 0xE1 0xEF b then some [(0x80, 0xBF), (0x80, 0xBF)]
  else if b = 0xF0 then some [(0x90, 0xBF), (0x80, 0xBF), (0x80, 0xBF)]
  else if b = 0xF4 then some [(0x80, 0x8F), (0x80, 0xBF), (0x80, 0xBF)]
  else if between 0xF1 0xF3 b then some [(0x80, 0xBF), (0x80, 0xBF), (0x80, 0xBF)]
  else none

/-- The payload bits of a first byte. -/
def leadBits (b : UInt8) : Nat :=
  if b < 0x80 then b.toNat
  else if b < 0xE0 then b.toNat % 0x20
  else if b < 0xF0 then b.toNat % 0x10
  else b.toNat % 0x08

/-- Follows the expected continuation bytes as far as they go, gathering their
payload: the code point when all are there, and the bytes that are left. -/
def gather (code : Nat) : List (UInt8 × UInt8) → List UInt8 → Option Nat × List UInt8
  | [], rest => (some code, rest)
  | _ :: _, [] => (none, [])
  | (lo, hi) :: more, b :: rest =>
    if between lo hi b then gather (code * 0x40 + b.toNat % 0x40) more rest
    else (none, b :: rest)

/-- The first character of a nonempty byte sequence and the bytes after it. -/
def next (b : UInt8) (rest : List UInt8) : Char × List UInt8 :=
  match continuations b with
  | none => (replacement, rest)
  | some expected =>
    match gather (leadBits b) expected rest with
    | (some code, left) => (Char.ofNat code, left)
    | (none, left) => (replacement, left)

theorem gather_length (code : Nat) (expected : List (UInt8 × UInt8)) (rest : List UInt8) :
    (gather code expected rest).2.length ≤ rest.length := by
  fun_induction gather code expected rest with
  | case1 => simp
  | case2 => simp
  | case3 code lo hi more b rest h ih => simp only [List.length_cons]; omega
  | case4 => simp

theorem next_length (b : UInt8) (rest : List UInt8) :
    (next b rest).2.length ≤ rest.length := by
  unfold next
  split
  · exact Nat.le_refl _
  · next expected _ =>
    have h := gather_length (leadBits b) expected rest
    split <;> next heq => rw [heq] at h; exact h

/-- The text of a byte sequence, broken parts replaced. -/
def decode : List UInt8 → List Char
  | [] => []
  | b :: rest => (next b rest).1 :: decode (next b rest).2
termination_by bytes => bytes.length
decreasing_by exact Nat.lt_succ_of_le (next_length b rest)

@[simp] theorem decode_nil : decode [] = [] := by rw [decode]

theorem decode_cons (b : UInt8) (rest : List UInt8) :
    decode (b :: rest) = (next b rest).1 :: decode (next b rest).2 := by
  rw [decode]

end Interpolation.Utf8
