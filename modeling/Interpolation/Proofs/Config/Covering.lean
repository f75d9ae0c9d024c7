/-
Ranges cover bytes of a source.

* `Covers` — a range is that of given bytes in a source;
* `Covers.trans` — a part of what a range covers is a part of the source;
* `scan_covers` — the tokens of a scan are covered by their ranges.

Design notes: a source begins at a position of its own, so the byte offsets of a range are
counted from there.  Only the byte offsets are looked at here; lines and columns are counted
along with them.
-/
import Interpolation.Config.Scan

namespace Interpolation.Config

variable {source : Bytes} {start : Pos}

/-- The given bytes stand in a source where a range starts. -/
def StandsAt (source : Bytes) (start : Pos) (range : Range) (bytes : Bytes) : Prop :=
  ∃ before after, source = before ++ bytes ++ after ∧
    range.start.byte = start.byte + before.length

/-- A range covers exactly the given bytes of a source. -/
def Covers (source : Bytes) (start : Pos) (range : Range) (bytes : Bytes) : Prop :=
  StandsAt source start range bytes ∧ range.stop.byte = range.start.byte + bytes.length

theorem StandsAt.trans {range inner : Range} {bytes part : Bytes}
    (h : StandsAt source start range bytes) (hpart : StandsAt bytes range.start inner part) :
    StandsAt source start inner part := by
  obtain ⟨before, after, rfl, hrange⟩ := h
  obtain ⟨first, last, rfl, hinner⟩ := hpart
  refine ⟨before ++ first, last ++ after, by simp, ?_⟩
  rw [hinner, hrange, List.length_append]
  omega

theorem Covers.trans {range inner : Range} {bytes part : Bytes}
    (h : Covers source start range bytes) (hpart : Covers bytes range.start inner part) :
    Covers source start inner part :=
  ⟨h.1.trans hpart.1, hpart.2⟩

/-- **The tokens of a scan are covered by their ranges**, if the splitter takes each token
from the front of what it uses up. -/
theorem scan_covers {split : Splitter}
    (hsplit : ∀ bytes, (split bytes).2 <+: bytes.take (split bytes).1) (file : String)
    (pos : Pos) (bytes : Bytes) :
    ∀ token ∈ (scan split file pos bytes).tokens, Covers bytes pos token.range token.bytes := by
  fun_induction scan split file pos bytes with
  | case1 => exact fun _ h => nomatch h
  | case2 => exact fun _ h => nomatch h
  | case3 pos b rest h used token more ih =>
    have htake : (b :: rest).take used ++ (b :: rest).drop used = b :: rest :=
      List.take_append_drop _ _
    refine List.forall_mem_cons.mpr ⟨⟨?_, rfl⟩, fun t ht => ?_⟩
    · obtain ⟨behind, hbehind⟩ := hsplit (b :: rest)
      refine ⟨[], behind ++ (b :: rest).drop used, ?_, by simp⟩
      rw [List.nil_append, ← List.append_assoc, hbehind, htake]
    · obtain ⟨⟨before, after, hrest, hstart⟩, hstop⟩ := ih t ht
      refine ⟨⟨(b :: rest).take used ++ before, after, ?_, ?_⟩, hstop⟩
      · rw [List.append_assoc, List.append_assoc, ← List.append_assoc before, ← hrest, htake]
      · rw [hstart, Pos.advance_byte, List.length_append]
        omega

/-! ### Names in steps -/

theorem splitStep_isPrefix (bytes : Bytes) :
    (splitStep bytes).2 <+: bytes.take (splitStep bytes).1 := by
  cases bytes with
  | nil => exact List.prefix_rfl
  | cons b rest =>
    rw [splitStep]
    split
    · next hdot => simp [hdot]
    · have htake : (b :: rest).take (b :: rest.takeWhile (· ≠ 0x2E)).length =
          b :: rest.takeWhile (· ≠ 0x2E) := by
        rw [List.length_cons, List.take_succ_cons,
          ← (List.prefix_iff_eq_take.mp (List.takeWhile_prefix _))]
      simp only [htake]
      exact List.prefix_rfl

/-- A segment between dots. -/
structure IsDotless (segment : Bytes) : Prop where
  ne_nil : segment ≠ []
  dot_notMem : 0x2E ∉ segment

theorem IsDotless.ne_dot {segment : Bytes} (h : IsDotless segment) : segment ≠ [0x2E] := by
  rintro rfl
  exact h.dot_notMem List.mem_cons_self

theorem scan_dot (file : String) (pos : Pos) (rest : Bytes) :
    (scan splitStep file pos (0x2E :: rest)).tokens =
      ⟨[0x2E], ⟨file, pos, pos.advance [0x2E]⟩⟩ ::
        (scan splitStep file (pos.advance [0x2E]) rest).tokens := by
  rw [scan_cons _ _ _ (List.cons_ne_nil _ _) (by simp [splitStep])]
  simp [splitStep]

/-- A segment is one token if a dot is behind it or nothing. -/
theorem scan_segment {segment : Bytes} (h : IsDotless segment) {rest : Bytes}
    (hrest : ∀ b ∈ rest.head?, b = 0x2E) (file : String) (pos : Pos) :
    (scan splitStep file pos (segment ++ rest)).tokens =
      ⟨segment, ⟨file, pos, pos.advance segment⟩⟩ ::
        (scan splitStep file (pos.advance segment) rest).tokens := by
  obtain ⟨b, more, rfl⟩ := List.exists_cons_of_ne_nil h.ne_nil
  obtain ⟨hb, hmore⟩ : 0x2E ≠ b ∧ 0x2E ∉ more := by simpa using h.dot_notMem
  have hdotless : ∀ c ∈ more, decide (c ≠ 0x2E) = true :=
    fun c hc => decide_eq_true fun heq => hmore (heq ▸ hc)
  have htoken : (more ++ rest).takeWhile (· ≠ 0x2E) = more := by
    rw [List.takeWhile_append_of_pos hdotless]
    cases rest with
    | nil => simp
    | cons c rest =>
      rw [hrest c rfl]
      simp
  have hsplit : splitStep (b :: more ++ rest) = ((b :: more).length, b :: more) := by
    rw [List.cons_append, splitStep, if_neg (Ne.symm hb), htoken]
  rw [scan_cons _ _ _ (by simp) (by rw [hsplit]; simp), hsplit]
  simp

end Interpolation.Config
