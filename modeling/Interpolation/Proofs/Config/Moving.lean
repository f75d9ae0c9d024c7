/-
Moving a fragment moves its ranges.

* `advance_pos` — moving over bytes and moving the fragment can be done in either order;
* `scan_move`, `lines_move` — the tokens of a fragment are the same wherever it begins, and
  their ranges are moved along;
* `value_mapRange` — what a path leads to is the same wherever it is written, and what is
  reported about it is moved along.

Design notes: only the first line of a fragment shares its line with what stands before it,
so only there the columns are moved.  Behind a line feed they are counted from 1 again, and
for that to agree the position moved over must not lie before the fragment
(`m.old.line ≤ p.line`).  A placeholder is no place in the fragment and stays where it is;
with lines counted from 1 no range of a token is one.
-/
import Interpolation.Proofs.Expression.Reference

namespace Interpolation.Config

namespace Pos

theorem line_le_pass (p : Pos) (cluster : List Char) : p.line ≤ (p.pass cluster).line := by
  unfold pass
  split
  · show p.line ≤ p.line + 1
    omega
  · exact Int.le_refl _

theorem line_le_foldl_pass (p : Pos) (clusters : List (List Char)) :
    p.line ≤ (clusters.foldl pass p).line := by
  induction clusters generalizing p with
  | nil => exact Int.le_refl _
  | cons cluster rest ih => exact Int.le_trans (line_le_pass p cluster) (ih _)

theorem line_le_advance (p : Pos) (bytes : Bytes) : p.line ≤ (p.advance bytes).line :=
  line_le_foldl_pass p _

end Pos

/-- A fragment is moved: it begins at the new position instead of the old one. -/
structure Move where
  old : Pos
  new : Pos

namespace Move

/-- Where a position of the fragment is moved to. -/
def pos (m : Move) (p : Pos) : Pos where
  line := p.line + (m.new.line - m.old.line)
  column := if p.line = m.old.line then p.column + (m.new.column - m.old.column) else p.column
  byte := p.byte + (m.new.byte - m.old.byte)

/-- Where a range of the fragment is moved to; a placeholder stays one. -/
def range (m : Move) (r : Range) : Range :=
  if r.start = .zero ∧ r.stop = .zero then r else ⟨r.file, m.pos r.start, m.pos r.stop⟩

variable (m : Move) {p : Pos}

@[simp] theorem pos_line (p : Pos) : (m.pos p).line = p.line + (m.new.line - m.old.line) := rfl

@[simp] theorem pos_old : m.pos m.old = m.new := by
  obtain ⟨⟨line, column, byte⟩, ⟨line', column', byte'⟩⟩ := m
  simp only [pos, if_pos, Pos.mk.injEq]
  omega

@[simp] theorem range_placeholder (file : String) :
    m.range (.placeholder file) = .placeholder file := rfl

/-- A range on a line is no placeholder. -/
theorem range_of_line {r : Range} (h : 1 ≤ r.start.line) :
    m.range r = ⟨r.file, m.pos r.start, m.pos r.stop⟩ := by
  refine if_neg fun hzero => ?_
  have hline : r.start.line = 0 := congrArg Pos.line hzero.1
  omega

/-! ### Moving over bytes -/

theorem pass_pos (h : m.old.line ≤ p.line) (cluster : List Char) :
    (m.pos p).pass cluster = m.pos (p.pass cluster) := by
  unfold Pos.pass pos
  split
  · -- behind a line feed there is nothing left of the first line
    have hlater : ¬ p.line + 1 = m.old.line := by omega
    simp only [if_neg hlater, Pos.mk.injEq, and_true]
    omega
  · simp only [Pos.mk.injEq, true_and, and_true]
    split <;> omega

theorem foldl_pass_pos (h : m.old.line ≤ p.line) (clusters : List (List Char)) :
    clusters.foldl Pos.pass (m.pos p) = m.pos (clusters.foldl Pos.pass p) := by
  induction clusters generalizing p with
  | nil => rfl
  | cons cluster rest ih =>
    rw [List.foldl_cons, List.foldl_cons, m.pass_pos h,
      ih (Int.le_trans h (p.line_le_pass cluster))]

/-- **Moving over bytes and moving the fragment can be done in either order.** -/
theorem advance_pos (h : m.old.line ≤ p.line) (bytes : Bytes) :
    (m.pos p).advance bytes = m.pos (p.advance bytes) := by
  unfold Pos.advance
  rw [m.foldl_pass_pos h]
  simp only [pos, Pos.mk.injEq, true_and]
  omega

end Move

/-! ### Tokens -/

/-- **The tokens of a fragment move with it.** -/
theorem scan_move {m : Move} (hold : 1 ≤ m.old.line) {p : Pos} (h : m.old.line ≤ p.line)
    (split : Splitter) (file : String) (bytes : Bytes) :
    (scan split file (m.pos p) bytes).tokens =
      (scan split file p bytes).tokens.map (Token.mapRange m.range) := by
  fun_induction scan split file p bytes with
  | case1 p => simp
  | case2 p b rest hstall => rw [scan_stalled _ _ _ (by simp) hstall, List.map_nil]
  | case3 p b rest hgoes used token more ih =>
    have hfirst : m.range ⟨file, p, p.advance token⟩ =
        ⟨file, m.pos p, m.pos (p.advance token)⟩ :=
      m.range_of_line (Int.le_trans hold h)
    rw [scan_cons _ _ _ (by simp) hgoes, m.advance_pos h, m.advance_pos h, List.map_cons,
      ← ih (Int.le_trans h (p.line_le_advance _)), Token.mapRange, hfirst]

theorem lines_move {m : Move} (hold : 1 ≤ m.old.line) (file : String) (bytes : Bytes) :
    lines file m.new bytes = (lines file m.old bytes).map (Token.mapRange m.range) := by
  have h := scan_move hold (Int.le_refl m.old.line) splitLine file bytes
  rwa [m.pos_old] at h

/-- No token lies before the fragment. -/
theorem line_le_of_mem_scan {split : Splitter} {file : String} {p : Pos} {bytes : Bytes} :
    ∀ token ∈ (scan split file p bytes).tokens, p.line ≤ token.range.start.line := by
  fun_induction scan split file p bytes with
  | case1 => exact fun _ h => absurd h List.not_mem_nil
  | case2 => exact fun _ h => absurd h List.not_mem_nil
  | case3 p b rest hgoes used token more ih =>
    refine List.forall_mem_cons.mpr ⟨Int.le_refl _, fun t ht => ?_⟩
    exact Int.le_trans (p.line_le_advance _) (ih t ht)

/-! ### Reports -/

variable {g : Range → Range}

/-- A report with its subject changed. -/
def Diagnostic.mapRange (g : Range → Range) (d : Diagnostic) : Diagnostic :=
  { d with subject := d.subject.map g }

/-- A value with the subjects of its reports changed. -/
def Result.mapRange (g : Range → Range) (r : Result) : Result :=
  ⟨r.value, r.diagnostics.map (Diagnostic.mapRange g)⟩

@[simp] theorem hasErrors_mapRange (ds : Diagnostics) :
    hasErrors (ds.map (Diagnostic.mapRange g)) = hasErrors ds := by
  rw [hasErrors, List.any_map]
  rfl

/-- Where a look-up is written has no say in it but in what is reported. -/
theorem index_mapRange (collection key : Value) (subject : Option Range) :
    index collection key (subject.map g) =
      (index collection key subject).map (Result.mapRange g) := by
  rcases index_cases collection key with ⟨v, h⟩ | ⟨summary, detail, h⟩ | ⟨f, h⟩
  · rw [h, h]
    rfl
  · rw [h, h]
    rfl
  · rw [h, h]
    rfl

theorem Step.apply_mapRange (step : Step) (v : Value) :
    (step.mapRange g).apply v = (step.apply v).map (Result.mapRange g) := by
  cases step with
  | root name range => rfl
  | _ => exact index_mapRange v _ (some _)

theorem Traversal.apply_mapRange (steps : List Step) (v : Value) :
    apply (steps.map (Step.mapRange g)) v = (apply steps v).map (Result.mapRange g) := by
  induction steps generalizing v with
  | nil => rfl
  | cons step rest ih =>
    rw [List.map_cons, apply, apply, Step.apply_mapRange]
    cases step.apply v with
    | error f => rfl
    | ok found =>
      show (if hasErrors (found.mapRange g).diagnostics then _ else _) =
        Except.map (Result.mapRange g) (if hasErrors found.diagnostics then _ else _)
      rw [show (found.mapRange g).diagnostics = found.diagnostics.map (Diagnostic.mapRange g)
        from rfl, hasErrors_mapRange]
      split
      · rfl
      · exact ih found.value

/-- **What a path leads to is the same wherever it is written**, and what is reported about
it is moved along. -/
theorem Traversal.value_mapRange (t : Traversal) (context : Option Context) :
    (t.mapRange g).value context = (t.value context).map (Result.mapRange g) := by
  obtain ⟨first, rest⟩ := t
  cases first with
  | root name range =>
    cases context with
    | none => rfl
    | some c =>
      simp only [value, mapRange, Step.mapRange]
      cases c.lookupVariable name with
      | none => rfl
      | some v => exact apply_mapRange rest v
  | _ => rfl

end Interpolation.Config
