/-
Scanning a source fragment into tokens with their ranges.

* `scan_nil` — an empty fragment has no tokens;
* `scan_cons` — one step of scanning a nonempty fragment;
* `splitLine_pos` — cutting off a line always makes progress.

Design notes: a fragment is a piece of a larger file that begins at a known
position.  A splitter says how many bytes the next token uses up and which bytes
it consists of; the position moves over all the bytes used up, the token's range
covers only the token.  A splitter that uses up nothing stalls the scan.
-/
import Interpolation.Config.Pos

namespace Interpolation.Config

/-- A piece of a source and the range it covers. -/
structure Token where
  bytes : Bytes
  range : Range

/-- What a scan found, and whether its splitter stalled before the end. -/
structure Scanned where
  tokens : List Token
  stalled : Bool

/-- A rule that cuts the next token off: the number of bytes it uses up and the
bytes of the token. -/
abbrev Splitter := Bytes → Nat × Bytes

/-- Number of grapheme clusters in a byte sequence. -/
def clusterCount (bytes : Bytes) : Nat :=
  Grapheme.count (Utf8.decode bytes)

/-- Drops one carriage return at the end. -/
def dropReturn (bytes : Bytes) : Bytes :=
  if bytes.getLast? = some 0x0D then bytes.dropLast else bytes

/-- One line without its line feed and without a carriage return at its end. -/
def splitLine : Splitter := fun bytes =>
  let line := bytes.takeWhile (· ≠ 0x0A)
  (if line.length < bytes.length then line.length + 1 else bytes.length, dropReturn line)

/-- A dot, or what precedes the next dot. -/
def splitStep : Splitter
  | [] => (0, [])
  | b :: rest =>
    if b = 0x2E then (1, [b])
    else
      let token := b :: rest.takeWhile (· ≠ 0x2E)
      (token.length, token)

/-- Everything that is left. -/
def splitWhole : Splitter := fun bytes => (bytes.length, bytes)

/-- Cuts a fragment into tokens. -/
def scan (split : Splitter) (file : String) (pos : Pos) : Bytes → Scanned
  | [] => ⟨[], false⟩
  | b :: rest =>
    if _h : (split (b :: rest)).1 = 0 then ⟨[], true⟩
    else
      let used := (split (b :: rest)).1
      let token := (split (b :: rest)).2
      let more := scan split file (pos.advance ((b :: rest).take used)) ((b :: rest).drop used)
      ⟨⟨token, ⟨file, pos, pos.advance token⟩⟩ :: more.tokens, more.stalled⟩
termination_by bytes => bytes.length
decreasing_by simp only [List.length_drop, List.length_cons]; omega

/-- The lines of a fragment. -/
def lines (file : String) (pos : Pos) (bytes : Bytes) : List Token :=
  (scan splitLine file pos bytes).tokens

@[simp] theorem scan_nil (split : Splitter) (file : String) (pos : Pos) :
    scan split file pos [] = ⟨[], false⟩ := by rw [scan]

theorem scan_cons (split : Splitter) (file : String) (pos : Pos) {bytes : Bytes}
    (hne : bytes ≠ []) (hused : (split bytes).1 ≠ 0) :
    scan split file pos bytes =
      let more := scan split file (pos.advance (bytes.take (split bytes).1))
        (bytes.drop (split bytes).1)
      ⟨⟨(split bytes).2, ⟨file, pos, pos.advance (split bytes).2⟩⟩ :: more.tokens,
        more.stalled⟩ := by
  obtain ⟨b, rest, rfl⟩ := List.exists_cons_of_ne_nil hne
  rw [scan]
  exact dif_neg hused

theorem scan_stalled (split : Splitter) (file : String) (pos : Pos) {bytes : Bytes}
    (hne : bytes ≠ []) (hused : (split bytes).1 = 0) :
    scan split file pos bytes = ⟨[], true⟩ := by
  obtain ⟨b, rest, rfl⟩ := List.exists_cons_of_ne_nil hne
  rw [scan]
  exact dif_pos hused

theorem splitLine_pos {bytes : Bytes} (hne : bytes ≠ []) : (splitLine bytes).1 ≠ 0 := by
  have hlen : bytes.length ≠ 0 := fun h => hne (List.length_eq_zero_iff.mp h)
  simp only [splitLine]
  split <;> omega

end Interpolation.Config
