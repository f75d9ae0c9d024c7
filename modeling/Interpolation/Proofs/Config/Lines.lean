/-
The lines of a source and where they begin.

* `advance_line` — a line feed moves to the beginning of the next line, whatever bytes
  the line is made of;
* `advance_other` — characters that are clusters by themselves move one column each;
* `lines_cons` — the first line of a source, then the lines of the rest, which begin on
  the next line at column 1;
* `lines_start_column` — only the first line begins anywhere but at column 1.

Design notes: a source is taken apart at its first separator, a text as well as a
sequence of bytes; `lineInduction` is the induction that goes with it.
-/
import Interpolation.Config.Scan
import Interpolation.Proofs.Text.Decoding
import Interpolation.Proofs.Text.Grapheme
import Interpolation.Proofs.Text.Utf8
import Mathlib.Data.List.DropRight
import Mathlib.Data.List.TakeWhile

namespace Interpolation.Config

/-- What is left after the first separator is shorter than the whole, so a claim about
every list need only be shown of one line and of a line before a list that has it. -/
@[elab_as_elim]
theorem lineInduction {α : Type} [DecidableEq α] (sep : α) {motive : List α → Prop}
    (line : ∀ l, sep ∉ l → motive l)
    (cons : ∀ l rest, sep ∉ l → motive rest → motive (l ++ sep :: rest)) :
    ∀ xs, motive xs := by
  intro xs
  induction h : xs.length using Nat.strongRecOn generalizing xs with
  | ind n ih =>
    by_cases hsep : sep ∈ xs
    · obtain ⟨l, rest, rfl, hl⟩ := List.eq_append_cons_of_mem hsep
      refine cons l rest hl (ih rest.length ?_ rest rfl)
      simp only [List.length_append, List.length_cons] at h
      omega
    · exact line xs hsep

/-- What stands behind the last separator does not depend on what is before the first. -/
theorem rtakeWhile_line {α : Type} [DecidableEq α] (sep : α) (l rest : List α) :
    (l ++ sep :: rest).rtakeWhile (· ≠ sep) = rest.rtakeWhile (· ≠ sep) := by
  induction rest using List.reverseRecOn with
  | nil =>
    rw [List.rtakeWhile_concat_neg _ _ _ (by simp)]
    rfl
  | append_singleton init x ih =>
    rw [← List.cons_append, ← List.append_assoc, List.rtakeWhile_concat, List.rtakeWhile_concat, ih]

namespace Pos

theorem pass_within {cluster : List Char} (h : '\n' ∉ cluster) (p : Pos) :
    p.pass cluster = { p with column := p.column + 1 } := by
  have hends : endsLine cluster = false := by
    rw [endsLine, Bool.or_eq_false_iff, decide_eq_false_iff_not, decide_eq_false_iff_not]
    constructor
    · rintro rfl
      exact h (by simp)
    · rintro rfl
      exact h (by simp)
  simp [pass, hends]

/-- Clusters without a line feed stay on the line. -/
theorem foldl_pass_within {clusters : List (List Char)}
    (h : ∀ cluster ∈ clusters, '\n' ∉ cluster) (p : Pos) :
    clusters.foldl pass p = { p with column := p.column + clusters.length } := by
  induction clusters generalizing p with
  | nil => simp
  | cons cluster clusters ih =>
    obtain ⟨hfirst, hrest⟩ := List.forall_mem_cons.mp h
    rw [List.foldl_cons, pass_within hfirst, ih hrest]
    simp only [List.length_cons]
    congr 1
    omega

/-- **A line feed moves to the beginning of the next line.** -/
theorem advance_line {line : Bytes} (h : 0x0A ∉ line) (p : Pos) :
    p.advance (line ++ [0x0A]) = ⟨p.line + 1, 1, p.byte + (line.length + 1)⟩ := by
  have hdecode : Utf8.decode (line ++ [0x0A]) = Utf8.decode line ++ ['\n'] := by
    rw [Utf8.decode_append_ascii (by decide)]
    simp
  have hline : '\n' ∉ Utf8.decode line := Utf8.lineFeed_mem_decode.not.mpr h
  -- the clusters before the last move within the line, the last one ends it
  obtain ⟨before, last, heq, hbefore, hlast⟩ := Grapheme.clusters_line hline
  have hends : endsLine last = true := by rcases hlast with rfl | rfl <;> rfl
  rw [advance, hdecode, heq, List.foldl_append, foldl_pass_within hbefore]
  simp [pass, hends]

/-- Characters without a role of their own move one column each. -/
theorem advance_other {cs : List Char} (hcs : ∀ c ∈ cs, Grapheme.role c = .other) (p : Pos) :
    p.advance (Utf8.encode cs) =
      ⟨p.line, p.column + cs.length, p.byte + (Utf8.encode cs).length⟩ := by
  have hwithin : ∀ cluster ∈ cs.map fun c => [c], '\n' ∉ cluster := by
    rw [List.forall_mem_map]
    intro c hc hfeed
    obtain rfl := List.mem_singleton.mp hfeed
    cases hcs '\n' hc
  have hsingle : ∀ c ∈ cs, Grapheme.IsSingle (Grapheme.role c) :=
    fun c hc => .inr (.inr (hcs c hc))
  rw [advance, Utf8.decode_encode, Grapheme.clusters_single hsingle, foldl_pass_within hwithin,
    List.length_map]

end Pos

variable (file : String) (pos : Pos) {line : Bytes}

theorem ne_lineFeed_of_mem (h : 0x0A ∉ line) : ∀ b ∈ line, decide (b ≠ 0x0A) = true := by
  intro b hb
  exact decide_eq_true fun heq => h (heq ▸ hb)

theorem splitLine_last (h : 0x0A ∉ line) : splitLine line = (line.length, dropReturn line) := by
  have htake : line.takeWhile (· ≠ 0x0A) = line :=
    List.takeWhile_eq_self_iff.mpr (ne_lineFeed_of_mem h)
  simp only [splitLine, htake]
  rw [if_neg (Nat.lt_irrefl _)]

theorem splitLine_cons (h : 0x0A ∉ line) (rest : Bytes) :
    splitLine (line ++ 0x0A :: rest) = (line.length + 1, dropReturn line) := by
  have htake : (line ++ 0x0A :: rest).takeWhile (· ≠ 0x0A) = line := by
    rw [List.takeWhile_append_of_pos (ne_lineFeed_of_mem h)]
    simp
  have hlt : line.length < (line ++ 0x0A :: rest).length := by simp
  simp only [splitLine, htake]
  rw [if_pos hlt]

theorem lines_nil : lines file pos [] = [] := by
  rw [lines, scan_nil]

/-- A line that nothing follows. -/
theorem lines_last (hne : line ≠ []) (h : 0x0A ∉ line) :
    lines file pos line =
      [⟨dropReturn line, ⟨file, pos, pos.advance (dropReturn line)⟩⟩] := by
  rw [lines, scan_cons _ _ _ hne (splitLine_pos hne), splitLine_last h]
  simp

/-- **The first line of a source**, and the lines of what comes after it. -/
theorem lines_cons (h : 0x0A ∉ line) (rest : Bytes) :
    lines file pos (line ++ 0x0A :: rest) =
      ⟨dropReturn line, ⟨file, pos, pos.advance (dropReturn line)⟩⟩ ::
        lines file ⟨pos.line + 1, 1, pos.byte + (line.length + 1)⟩ rest := by
  have hne : line ++ 0x0A :: rest ≠ [] := by simp
  have htake : (line ++ 0x0A :: rest).take (line.length + 1) = line ++ [0x0A] := by
    rw [List.append_cons]
    exact List.take_left' (by simp)
  have hdrop : (line ++ 0x0A :: rest).drop (line.length + 1) = rest := by
    rw [List.append_cons]
    exact List.drop_left' (by simp)
  rw [lines, scan_cons _ _ _ hne (splitLine_pos hne), splitLine_cons h]
  simp only [htake, hdrop, Pos.advance_line h]
  rfl

/-- Every line but the first begins at column 1. -/
theorem lines_start_column {source : Bytes} {i : Nat} {token : Token}
    (h : (lines file pos source)[i]? = some token) :
    token.range.start.column = if i = 0 then pos.column else 1 := by
  induction source using lineInduction (0x0A : UInt8) generalizing pos i with
  | line l hl =>
    rcases eq_or_ne l [] with rfl | hne
    · rw [lines_nil] at h
      cases h
    · rw [lines_last file pos hne hl] at h
      cases i with
      | zero =>
        obtain rfl := Option.some.inj h
        rfl
      | succ i => cases h
  | cons l rest hl ih =>
    rw [lines_cons file pos hl] at h
    cases i with
    | zero =>
      obtain rfl := Option.some.inj h
      rfl
    | succ i =>
      have hcolumn := ih _ h
      rw [hcolumn]
      exact ite_self _

end Interpolation.Config
