/-
Columns that count clusters never run ahead of columns that count bytes.

* `clusterCount_le`, `clusterCount_lt` — clusters against bytes, for any bytes and where a
  character takes several of them;
* `lineBefore_of_isRow` — what stands before an offset on its line is a part of the row;
* `place?_column` — the column of a placed position against the column of its range.

Design notes: both columns begin where the line does, so the column of the fragment cancels
out on the first line as 1 does on the later ones, and what is left is the length of the part
of the line against its number of clusters.  Decoding makes no more characters than there are
bytes, and cutting into clusters makes no more clusters than there are characters.  ASCII
keeps both counts as they are.  A character of several bytes stays whole whatever broken bytes
are around it, so decoding loses at least one there.
-/
import Interpolation.Proofs.Expression.RangeOrder

namespace Interpolation

namespace Config

theorem clusterCount_le (bytes : Bytes) : clusterCount bytes ≤ bytes.length :=
  calc Grapheme.count (Utf8.decode bytes)
      ≤ (Utf8.decode bytes).length := Grapheme.count_le_length _
    _ ≤ bytes.length := Utf8.length_decode_le bytes

/-- The bytes hold all of a character that takes more than one. -/
def HoldsWide (bytes : Bytes) : Prop :=
  ∃ c : Char, 1 < c.utf8Size ∧ String.utf8EncodeChar c <:+: bytes

theorem clusterCount_lt {bytes : Bytes} (h : HoldsWide bytes) :
    clusterCount bytes < bytes.length := by
  obtain ⟨c, hwide, before, after, rfl⟩ := h
  have hcount : clusterCount (before ++ String.utf8EncodeChar c ++ after) ≤
      (Utf8.decode before).length + 1 + (Utf8.decode after).length := by
    rw [clusterCount, List.append_assoc, Utf8.decode_append_char]
    refine (Grapheme.count_le_length _).trans ?_
    rw [List.length_append, List.length_cons]
    omega
  have hbefore := Utf8.length_decode_le before
  have hafter := Utf8.length_decode_le after
  rw [List.length_append, List.length_append, String.length_utf8EncodeChar]
  omega

/-- What stands between the last line feed before an offset and the offset. -/
def lineBefore (source : Bytes) (offset : Nat) : Bytes :=
  (source.take offset).rtakeWhile (· ≠ 0x0A)

theorem lineBefore_of_isRow {source before row : Bytes} {i offset : Nat}
    (hrow : IsRow source i before row) (hlength : offset ≤ row.length) :
    lineBefore source (before.length + offset) = row.take offset := by
  obtain ⟨after, hsource, -⟩ := hrow.split
  have htake : source.take (before.length + offset) = before ++ row.take offset := by
    rw [hsource, List.append_assoc, List.take_length_add_append,
      List.take_append_of_le_length hlength]
  have hfeed : 0x0A ∉ row.take offset := fun hmem => hrow.within (List.mem_of_mem_take hmem)
  have hpart : (row.take offset).rtakeWhile (· ≠ 0x0A) = row.take offset :=
    List.rtakeWhile_eq_self_iff.mpr (ne_lineFeed_of_mem hfeed)
  rw [lineBefore, htake]
  obtain rfl | hlast := hrow.opens
  · exact hpart
  · obtain ⟨init, rfl⟩ := List.getLast?_eq_some_iff.mp hlast
    rw [List.append_assoc, List.singleton_append, rtakeWhile_line, hpart]

end Config

namespace Expression

open Config (Range HoldsWide clusterCount lineBefore)
open Utf8 (encode)

variable {p : Template.Pos} {source : Bytes} {start : Config.Pos} {range : Range}

theorem toConfigPos_of_place? (h : place? p source start = some range) :
    toConfigPos p source start = range.start := by
  rw [toConfigPos, rangeOf, h]
  rfl

/-- What a position and the start of its range are made of, with the part of the line before
them. -/
theorem exists_lineBefore_of_place? (h : place? p source start = some range) :
    ∃ offset : Nat, offset ≤ source.length ∧ 0x0A ∉ lineBefore source offset ∧
      range.start = ⟨p.line, (if p.line = start.line then start.column else 1) +
        clusterCount (lineBefore source offset), start.byte + offset⟩ ∧
      p.column = (if p.line = start.line then start.column else 1) +
        (lineBefore source offset).length := by
  have hline := place?_start_line h
  obtain ⟨i, before, row, token, offset, hrow, htoken, hlength, hcolumn, rfl⟩ :=
    exists_row_of_place? h
  obtain ⟨after, hsource, -⟩ := hrow.split
  -- the row may go on with a carriage return, which the offset does not reach
  have hshort : offset ≤ row.length := hlength.trans htoken.isPrefix.length_le
  have hbefore : lineBefore source (before.length + offset) = row.take offset :=
    Config.lineBefore_of_isRow hrow hshort
  have htake : token.bytes.take offset = row.take offset := by
    obtain ⟨cut, hcut⟩ := htoken.isPrefix
    rw [← hcut, List.take_append_of_le_length hlength]
  simp only [rangeWithin, htoken.range] at hline hcolumn ⊢
  -- the first row is the one on the line of the start
  have hfirst : (if i = 0 then start.column else 1) =
      if p.line = start.line then start.column else 1 := by
    by_cases hzero : i = 0
    · rw [if_pos hzero, if_pos (by omega)]
    · rw [if_neg hzero, if_neg (by omega)]
  refine ⟨before.length + offset, ?_, ?_, ?_, ?_⟩
  · rw [hsource, List.length_append, List.length_append]
    omega
  · rw [hbefore]
    exact fun hmem => hrow.within (List.mem_of_mem_take hmem)
  · rw [hbefore, htake, hline, hfirst]
    congr 1
    omega
  · rw [hbefore, List.length_take_of_le hshort, hcolumn, hfirst]

/-- **Columns that count clusters never run ahead of columns that count bytes.**  A position
that is placed is some bytes into the source, and its column is that of the line and the number
of bytes before it on the line.  Its range does not start at a later column.  It starts at the
same one where these bytes are all ASCII, and then the way there and back again leads to the
position; it starts at an earlier one where they hold a character of several bytes. -/
theorem place?_column (h : place? p source start = some range) :
    ∃ offset : Nat, offset ≤ source.length ∧ range.start.byte = start.byte + offset ∧
      p.column = (if p.line = start.line then start.column else 1) +
        (lineBefore source offset).length ∧
      range.start.column ≤ p.column ∧
      ((∀ b ∈ lineBefore source offset, b < 0x80) →
        range.start.column = p.column ∧
          toTemplatePos p.file (toConfigPos p source start) = p) ∧
      (HoldsWide (lineBefore source offset) → range.start.column < p.column) := by
  rw [toConfigPos_of_place? h]
  obtain ⟨offset, hoffset, hfeed, hstart, hcolumn⟩ := exists_lineBefore_of_place? h
  rw [hstart]
  refine ⟨offset, hoffset, rfl, hcolumn, ?_, ?_, ?_⟩
  · have hle := Config.clusterCount_le (lineBefore source offset)
    show _ + (clusterCount (lineBefore source offset) : Int) ≤ p.column
    omega
  · intro hascii
    rw [Config.clusterCount_ascii hascii hfeed, ← hcolumn]
    exact ⟨rfl, rfl⟩
  · intro hwide
    have hlt := Config.clusterCount_lt hwide
    show _ + (clusterCount (lineBefore source offset) : Int) < p.column
    omega

/-- Two bytes of ASCII into the first line, and behind a letter of two bytes in the second. -/
theorem place?_column_both_lines :
    (∃ range, place? ⟨"main", 3, 9⟩ (encode "ab\né = 1".toList) ⟨3, 7, 40⟩ = some range ∧
      range.start.column = 9 ∧
      toTemplatePos "main"
        (toConfigPos ⟨"main", 3, 9⟩ (encode "ab\né = 1".toList) ⟨3, 7, 40⟩) = ⟨"main", 3, 9⟩) ∧
    ∃ range, place? ⟨"main", 4, 4⟩ (encode "ab\né = 1".toList) ⟨3, 7, 40⟩ = some range ∧
      range.start.column < 4 := by
  constructor
  · have hplace : place? ⟨"main", 3, 9⟩ (encode "ab\né = 1".toList) ⟨3, 7, 40⟩ =
        some ⟨"main", ⟨3, 9, 42⟩, ⟨3, 9, 42⟩⟩ := by decide +kernel
    obtain ⟨offset, -, hbyte, -, -, hascii, -⟩ := place?_column hplace
    obtain rfl : offset = 2 := by
      have hsum : (42 : Int) = 40 + offset := hbyte
      omega
    have hbefore : lineBefore (encode "ab\né = 1".toList) 2 = [0x61, 0x62] := rfl
    rw [hbefore] at hascii
    exact ⟨_, hplace, hascii (by simp)⟩
  · have hplace : place? ⟨"main", 4, 4⟩ (encode "ab\né = 1".toList) ⟨3, 7, 40⟩ =
        some ⟨"main", ⟨4, 3, 46⟩, ⟨4, 6, 49⟩⟩ := by decide +kernel
    obtain ⟨offset, -, hbyte, -, -, -, hwide⟩ := place?_column hplace
    obtain rfl : offset = 6 := by
      have hsum : (46 : Int) = 40 + offset := hbyte
      omega
    have hbefore : lineBefore (encode "ab\né = 1".toList) 6 =
        String.utf8EncodeChar 'é' ++ [0x20] := rfl
    have hsize : 1 < 'é'.utf8Size := by decide
    rw [hbefore] at hwide
    exact ⟨_, hplace, hwide ⟨'é', hsize, [], [0x20], rfl⟩⟩

end Expression

end Interpolation
