/-
Moving over bytes in parts.

* `advance_cut_line` — behind a line feed the rest can be moved over by itself, whatever
  bytes there are on both sides;
* `advance_append_iff` — elsewhere, moving in two parts leads to the same place exactly when
  a line feed follows or no cluster is cut;
* `advance_advance` — so it does behind a line feed, and in ASCII.

Design notes: a cut can go wrong in two ways.  It can tear a sequence of bytes, so that its
halves are decoded as broken ones, or it can tear a cluster, so that the second half begins a
column of its own.  Both change the column only, and only until the next line feed, which
begins a new line at column 1 whatever stands before it.  So it is enough to look at the line
that the first part leaves open, and only if the second part does not end it.
-/
import Interpolation.Proofs.Config.Rows

namespace Interpolation.Config

/-- The line that bytes leave open: what stands behind the last line feed. -/
def openLine (bytes : Bytes) : Bytes :=
  bytes.rtakeWhile (· ≠ 0x0A)

theorem openLine_of_not_mem {line : Bytes} (h : 0x0A ∉ line) : openLine line = line :=
  List.rtakeWhile_eq_self_iff.mpr (ne_lineFeed_of_mem h)

/-- The open line of a source depends only on what comes after its first line feed. -/
theorem openLine_cons (line rest : Bytes) : openLine (line ++ 0x0A :: rest) = openLine rest :=
  rtakeWhile_line 0x0A line rest

theorem not_mem_openLine (bytes : Bytes) : 0x0A ∉ openLine bytes := by
  intro hmem
  have hne : decide ((0x0A : UInt8) ≠ 0x0A) = true :=
    List.mem_rtakeWhile_imp (p := fun b => decide (b ≠ 0x0A)) hmem
  exact of_decide_eq_true hne rfl

namespace Pos

/-- The byte offset has no say in how lines and columns are counted. -/
theorem foldl_pass_byte (clusters : List (List Char)) (p : Pos) (byte : Int) :
    clusters.foldl pass { p with byte := byte } = { clusters.foldl pass p with byte := byte } := by
  induction clusters generalizing p with
  | nil => rfl
  | cons cluster rest ih =>
    have hpass : ({ p with byte := byte } : Pos).pass cluster =
        { p.pass cluster with byte := byte } := by
      unfold pass
      split <;> rfl
    rw [List.foldl_cons, hpass, ih, List.foldl_cons]

/-- **Behind a line feed the rest can be moved over by itself.** -/
theorem advance_cut_line (a b : Bytes) (p : Pos) :
    p.advance (a ++ 0x0A :: b) = (p.advance (a ++ [0x0A])).advance b := by
  have hline : Utf8.decode (a ++ [0x0A]) = Utf8.decode a ++ ['\n'] := by
    rw [Utf8.decode_append_ascii (by decide)]
    simp
  -- a line feed is no part of a longer sequence, and nothing joins it
  have hdecode : Utf8.decode (a ++ 0x0A :: b) = Utf8.decode a ++ '\n' :: Utf8.decode b :=
    Utf8.decode_append_ascii (by decide) a b
  simp only [advance, hline, hdecode, Grapheme.clusters_append_line _ (Utf8.decode b),
    List.foldl_append, foldl_pass_byte, List.length_append, List.length_cons, List.length_nil]
  congr 1
  omega

/-- Up to the next line feed a line counts as a line, in however many parts it is moved
over. -/
theorem advance_append_line {a line : Bytes} (ha : 0x0A ∉ a) (hline : 0x0A ∉ line) (rest : Bytes)
    (p : Pos) :
    (p.advance a).advance (line ++ 0x0A :: rest) = p.advance (a ++ (line ++ 0x0A :: rest)) := by
  have hwhole : 0x0A ∉ a ++ line := by simp [ha, hline]
  have hsame : (p.advance a).advance (line ++ [0x0A]) = p.advance (a ++ line ++ [0x0A]) := by
    rw [advance_within ha, advance_line hline, advance_line hwhole, List.length_append]
    congr 1
    push_cast
    omega
  rw [advance_cut_line, hsame, ← advance_cut_line, List.append_assoc]

/-- **When bytes can be moved over in two parts.**  Either the second part has a line feed, or
the clusters on the line around the cut are those before it and those after it. -/
theorem advance_append_iff (a b : Bytes) (p : Pos) :
    (p.advance a).advance b = p.advance (a ++ b) ↔
      0x0A ∈ b ∨ clusterCount (openLine a ++ b) = clusterCount (openLine a) + clusterCount b := by
  induction a using lineInduction (0x0A : UInt8) generalizing p with
  | line a ha =>
    rw [openLine_of_not_mem ha]
    by_cases hb : 0x0A ∈ b
    · obtain ⟨line, rest, rfl, hline⟩ := List.eq_append_cons_of_mem hb
      exact iff_of_true (advance_append_line ha hline rest p) (.inl hb)
    · have hab : 0x0A ∉ a ++ b := by simp [ha, hb]
      rw [advance_within ha, advance_within hb, advance_within hab, Pos.mk.injEq,
        List.length_append]
      constructor
      · rintro ⟨-, hcolumn, -⟩
        right
        have hsum : p.column + clusterCount a + clusterCount b =
          p.column + (clusterCount (a ++ b) : Int) := hcolumn
        omega
      · rintro (hmem | hcount)
        · exact absurd hmem hb
        · refine ⟨rfl, ?_, ?_⟩
          · show p.column + clusterCount a + clusterCount b =
              p.column + (clusterCount (a ++ b) : Int)
            omega
          · push_cast
            omega
  | cons line rest hline ih =>
    -- both sides move over the first line, and from there the claim is about the rest
    rw [openLine_cons, List.append_assoc, List.cons_append, advance_cut_line line rest,
      advance_cut_line line (rest ++ b)]
    exact ih _

/-- A combining mark that is cut off from its letter takes a column of its own. -/
example : (((⟨1, 1, 0⟩ : Pos).advance [0x65]).advance [0xCC, 0x81]).column = 3 ∧
    ((⟨1, 1, 0⟩ : Pos).advance ([0x65] ++ [0xCC, 0x81])).column = 2 := by
  constructor
  · decide +kernel
  · decide +kernel

/-- **Moving over bytes in two parts leads to the same place** if the first part ends with a
line feed, whatever the bytes, or if all of them are ASCII.  In ASCII only a carriage return
and a line feed share a cluster, and a cut between them makes no difference either, since the
line feed begins a new line at column 1 with or without it. -/
theorem advance_advance {a b : Bytes}
    (h : a.getLast? = some 0x0A ∨ ∀ x ∈ a ++ b, x < 0x80) (p : Pos) :
    (p.advance a).advance b = p.advance (a ++ b) := by
  rw [advance_append_iff]
  rcases h with hlast | hascii
  · obtain ⟨init, rfl⟩ := List.getLast?_eq_some_iff.mp hlast
    right
    have hopen : openLine (init ++ [0x0A]) = [] := openLine_cons init []
    have hnil : clusterCount [] = 0 := by decide +kernel
    rw [hopen, hnil, List.nil_append, Nat.zero_add]
  · by_cases hb : 0x0A ∈ b
    · exact .inl hb
    · right
      obtain ⟨ha, hb'⟩ := List.forall_mem_append.mp hascii
      have hopen : ∀ x ∈ openLine a, x < 0x80 :=
        fun x hx => ha x ((List.rtakeWhile_suffix _ a).mem hx)
      have hline : 0x0A ∉ openLine a := not_mem_openLine a
      have hwhole : 0x0A ∉ openLine a ++ b := by simp [hline, hb]
      rw [clusterCount_ascii (List.forall_mem_append.mpr ⟨hopen, hb'⟩) hwhole,
        clusterCount_ascii hopen hline, clusterCount_ascii hb' hb, List.length_append]

/-- A combining mark behind a line feed, before which a sequence breaks off; and ASCII that is
cut between two carriage returns, the second of which has a line feed with it. -/
theorem advance_advance_brokenSequence :
    let broken : Bytes := [0x61, 0xE2, 0x82, 0x0A]
    let mark : Bytes := [0xCC, 0x81, 0xFF]
    let returns : Bytes := [0x78, 0x0D]
    let feed : Bytes := [0x0D, 0x0A, 0x79]
    (broken.getLast? = some 0x0A ∧
        ((⟨3, 5, 7⟩ : Pos).advance broken).advance mark =
          (⟨3, 5, 7⟩ : Pos).advance (broken ++ mark)) ∧
      (∀ x ∈ returns ++ feed, x < 0x80) ∧
        ((⟨3, 5, 7⟩ : Pos).advance returns).advance feed =
          (⟨3, 5, 7⟩ : Pos).advance (returns ++ feed) := by
  intro broken mark returns feed
  have hlast : broken.getLast? = some 0x0A := rfl
  have hascii : ∀ x ∈ returns ++ feed, x < 0x80 := by simp [returns, feed]
  exact ⟨⟨hlast, advance_advance (.inl hlast) _⟩, hascii, advance_advance (.inr hascii) _⟩

end Pos

end Interpolation.Config
