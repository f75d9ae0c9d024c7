/-
No range of a position is the wrong way round.

* `clusterCount_take_le` — a line has no fewer clusters than the part of it before a start
  byte;
* `exists_row_of_place?` — where a placed position is in the source, row by row;
* `place?_ordered` — a range between two characters of a text runs forwards on one line.

Design notes: the column where a range starts counts the clusters of a part of the line,
and the column where it stops those of the whole line.  A cluster once begun stays one
however the text goes on, and whether a character begins one depends on what is before it
alone.  So all that could turn a range round is a part that is not decoded as it is in the
whole, which takes a cut inside a sequence of bytes.
-/
import Interpolation.Proofs.Config.Rows
import Interpolation.Proofs.Expression.Placement

namespace Interpolation

namespace Config

/-- Cutting before a start byte leaves no more clusters than there were. -/
theorem clusterCount_take_le {bytes : Bytes} {n : Nat}
    (h : ∀ b, bytes[n]? = some b → Utf8.IsStart b) :
    clusterCount (bytes.take n) ≤ clusterCount bytes := by
  cases hrest : bytes.drop n with
  | nil =>
    have hall : bytes.take n = bytes := List.take_of_length_le (List.drop_eq_nil_iff.mp hrest)
    rw [hall]
  | cons b rest =>
    have hhead : bytes[n]? = some b := by
      rw [← List.head?_drop, hrest]
      rfl
    have hdecode : Utf8.decode bytes = Utf8.decode (bytes.take n) ++ Utf8.decode (b :: rest) := by
      rw [← Utf8.decode_append_start (h b hhead), ← hrest, List.take_append_drop]
    have htake : (Utf8.decode bytes).take (Utf8.decode (bytes.take n)).length =
        Utf8.decode (bytes.take n) := by
      rw [hdecode]
      exact List.take_left
    unfold clusterCount
    calc Grapheme.count (Utf8.decode (bytes.take n))
        = Grapheme.count ((Utf8.decode bytes).take (Utf8.decode (bytes.take n)).length) := by
          rw [htake]
      _ ≤ Grapheme.count (Utf8.decode bytes) := Grapheme.count_take_le _ _

theorem Token.IsOfRow.isPrefix {token : Token} {file : String} {row : Bytes} {place : Pos}
    (htoken : token.IsOfRow file row place) : token.bytes <+: row := by
  obtain heq | ⟨heq, -⟩ := htoken.bytes
  · exact ⟨_, heq.symm⟩
  · exact heq ▸ List.prefix_rfl

/-- The bytes of a token are in the source where its row is. -/
theorem Token.IsOfRow.getElem? {token : Token} {file : String} {source before row : Bytes}
    {place : Pos} {i offset : Nat} (htoken : token.IsOfRow file row place)
    (hrow : IsRow source i before row) (hoffset : offset < token.bytes.length) :
    source[before.length + offset]? = token.bytes[offset]? := by
  obtain ⟨after, hsource, -⟩ := hrow.split
  obtain ⟨cut, hcut⟩ := htoken.isPrefix
  rw [hsource, ← hcut, List.append_assoc, List.append_assoc,
    List.getElem?_append_right (by omega), Nat.add_sub_cancel_left,
    List.getElem?_append_left hoffset]

end Config

namespace Expression

open Config (IsRow Range Token)
open Utf8 (encode)

variable {p : Template.Pos} {source : Bytes} {start : Config.Pos} {range : Range}

/-- A placed position is so many bytes into the token of a row. -/
theorem exists_row_of_place? (h : place? p source start = some range) :
    ∃ i before row line, ∃ offset : Nat, IsRow source i before row ∧
      line.IsOfRow p.file row
        ⟨start.line + i, if i = 0 then start.column else 1, start.byte + before.length⟩ ∧
      offset ≤ line.bytes.length ∧ p.column = line.range.start.column + offset ∧
      range = rangeWithin p.file line offset := by
  rw [place?_eq_find?] at h
  obtain ⟨line, hfind, hplace⟩ := Option.bind_eq_some_iff.mp h
  obtain ⟨i, hi⟩ := List.mem_iff_getElem?.mp (List.mem_of_find?_eq_some hfind)
  obtain ⟨before, row, hrow, hline⟩ := Config.lines_getElem? p.file start hi
  obtain ⟨hpos, hlength, hrange⟩ := placeOn_eq_some hplace
  exact ⟨i, before, row, line, _, hrow, hline, by omega, by omega, hrange⟩

/-- A range that starts at a start byte of the source, or at its end, runs forwards on one
line. -/
theorem place?_ordered_of_isStart (h : place? p source start = some range)
    (hstart : ∀ offset : Nat, range.start.byte = start.byte + offset →
      ∀ b, source[offset]? = some b → Utf8.IsStart b) :
    range.start.line = range.stop.line ∧ range.start.byte ≤ range.stop.byte ∧
      range.start.column ≤ range.stop.column := by
  obtain ⟨i, before, row, line, offset, hrow, hline, hlength, -, rfl⟩ := exists_row_of_place? h
  -- the token at the offset begins as the source does there
  have hbyte : ∀ b, line.bytes[offset]? = some b → Utf8.IsStart b := by
    intro b hb
    have hlt : offset < line.bytes.length := (List.getElem?_eq_some_iff.mp hb).1
    refine hstart (before.length + offset) ?_ b (by rw [hline.getElem? hrow hlt, hb])
    simp only [rangeWithin, hline.range]
    omega
  have hcount := Config.clusterCount_take_le hbyte
  simp only [rangeWithin, hline.range]
  refine ⟨trivial, ?_, ?_⟩
  · omega
  · omega

/-- **Ranges are never the wrong way round.**  The source is a text that is written in
bytes, and the position is placed between two parts of it.  The range starts and stops on
one line, and no later in bytes or in columns than it stops. -/
theorem place?_ordered {before after : List Char}
    (h : place? p (encode (before ++ after)) start = some range)
    (hbetween : range.start.byte = start.byte + (encode before).length) :
    range.start.line = range.stop.line ∧ range.start.byte ≤ range.stop.byte ∧
      range.start.column ≤ range.stop.column := by
  refine place?_ordered_of_isStart h ?_
  intro offset hoffset b hb
  have hlength : offset = (encode before).length := by omega
  rw [hlength, Utf8.encode_append, List.getElem?_append_right (Nat.le_refl _), Nat.sub_self,
    ← List.head?_eq_getElem?] at hb
  exact Utf8.isStart_of_head_encode hb

/-- A position on the second line, between a letter and the mark on it. -/
theorem place?_ordered_within_cluster :
    let p := (toTemplatePos "main" .initial).after "a\ne".toList
    let source := encode ("a\ne".toList ++ "\u0301b".toList)
    ∃ range, place? p source .initial = some range ∧ range.start = ⟨2, 2, 3⟩ ∧
      range.start.line = range.stop.line ∧ range.start.byte ≤ range.stop.byte ∧
      range.start.column ≤ range.stop.column := by
  intro p source
  have hplace := place?_after "main" .initial "a\ne".toList "\u0301b".toList
  have hnot : ¬ OffLines "a\ne".toList "\u0301b".toList := by decide
  have hstart : placeAfter .initial "a\ne".toList = ⟨2, 2, 3⟩ := by decide +kernel
  rw [if_neg hnot, hstart] at hplace
  obtain ⟨range, hrange, hfirst⟩ := Option.map_eq_some_iff.mp hplace
  refine ⟨range, hrange, hfirst, place?_ordered hrange ?_⟩
  rw [hfirst]
  rfl

end Expression

end Interpolation
