/-
Offsets survive the way through positions that count bytes in a line.

* `place?_eq_find?` — a position is placed on the line it names, by what its column is
  past the column of that line;
* `place?_after` — where the position after the first part of a text is placed;
* `rangeOf_locate` — the range of an offset into a text.

Design notes: the position is found by passing over characters, the line by cutting
bytes.  Both come to the next line at a line feed and nowhere else, so what one line
feed does to both carries over to any number of them.  A line is cut without the
carriage return at its end, and text that ends in a line feed has no line behind it:
these are the places that are lost.
-/
import Interpolation.Expression.Placement
import Interpolation.Proofs.Config.Lines

namespace Interpolation.Expression

open Config (Token lines dropReturn lineInduction)
open Utf8 (encode)

/-! ### Finding the line -/

theorem place?_eq_find? (p : Template.Pos) (source : Bytes) (start : Config.Pos) :
    place? p source start =
      ((lines p.file start source).find? fun line => line.range.start.line == p.line).bind
        fun line => placeOn p.file line (p.column - line.range.start.column) := by
  have hfind : ((lines p.file start source).find? fun line => line.range.start.line == p.line) =
      ((lines p.file start source).zipIdx.find? fun entry =>
        entry.1.range.start.line == p.line).map Prod.fst := by
    conv_lhs => rw [← List.zipIdx_map_fst 0 (lines p.file start source)]
    rw [List.find?_map]
    rfl
  rw [place?, hfind]
  cases hentry : (lines p.file start source).zipIdx.find? fun entry =>
      entry.1.range.start.line == p.line with
  | none => rfl
  | some entry =>
    rcases entry with ⟨line, number⟩
    have hget : (lines p.file start source)[number]? = some line :=
      List.mk_mem_zipIdx_iff_getElem?.mp (List.mem_of_find?_eq_some hentry)
    have hcolumn : line.range.start.column = firstColumn start number :=
      Config.lines_start_column p.file start hget
    simp [hcolumn]

/-! ### Lines of a text -/

theorem encode_line (l rest : List Char) :
    encode (l ++ '\n' :: rest) = encode l ++ 0x0A :: encode rest := by
  rw [Utf8.encode_append, Utf8.encode_cons]
  rfl

theorem lineFeed_not_mem_encode {l : List Char} (h : '\n' ∉ l) : 0x0A ∉ encode l :=
  (Utf8.mem_encode_iff (by decide)).not.mpr h

theorem encode_pos {cs : List Char} (h : cs ≠ []) : 0 < (encode cs).length := by
  obtain ⟨c, rest, rfl⟩ := List.exists_cons_of_ne_nil h
  have hpos := c.utf8Size_pos
  rw [Utf8.length_encode, Utf8.byteLength_cons]
  omega

theorem dropReturn_isPrefix (bytes : Bytes) : dropReturn bytes <+: bytes := by
  unfold dropReturn
  split
  · exact List.dropLast_prefix bytes
  · exact List.prefix_rfl

theorem length_le_dropReturn (bytes : Bytes) : bytes.length ≤ (dropReturn bytes).length + 1 := by
  unfold dropReturn
  split
  · rw [List.length_dropLast]
    omega
  · omega

/-- A beginning of a line is all there after the line is cut, unless it is the whole
line with the carriage return at its end. -/
theorem encode_le_dropReturn (before after : List Char) :
    (encode before).length ≤ (dropReturn (encode (before ++ after))).length ↔
      ¬ (after = [] ∧ before.getLast? = some '\r') := by
  rcases eq_or_ne after [] with rfl | hafter
  · have hlast : (encode before).getLast? = some 0x0D ↔ before.getLast? = some '\r' :=
      Utf8.getLast?_encode (by decide)
    rw [List.append_nil]
    by_cases hreturn : before.getLast? = some '\r'
    · have hne : before ≠ [] := by
        rintro rfl
        cases hreturn
      have hpos := encode_pos hne
      rw [dropReturn, if_pos (hlast.mpr hreturn), List.length_dropLast]
      simp only [hreturn, and_self, not_true, iff_false]
      omega
    · rw [dropReturn, if_neg (hlast.not.mpr hreturn)]
      simp [hreturn]
  · have hpos := encode_pos hafter
    have hlen := length_le_dropReturn (encode (before ++ after))
    rw [Utf8.encode_append, List.length_append] at hlen
    rw [Utf8.encode_append]
    simp only [hafter, false_and, not_false_eq_true, iff_true]
    omega

/-! ### Places in a text -/

/-- Whether a place between two parts of a text is on none of its lines: behind the last
line feed, or behind the carriage return at the end of a line. -/
def OffLines (before after : List Char) : Prop :=
  (after = [] ∧ (before = [] ∨ before.getLast? = some '\n')) ∨
    (before.getLast? = some '\r' ∧ (after = [] ∨ after.head? = some '\n'))

instance (before after : List Char) : Decidable (OffLines before after) :=
  inferInstanceAs (Decidable (_ ∨ _))

/-- What stands behind the last line feed of a text. -/
def lastLine (cs : List Char) : List Char :=
  cs.rtakeWhile (· ≠ '\n')

/-- Where a text that begins at a position leads to: its line feeds are counted, then
the clusters behind the last of them. -/
def placeAfter (start : Config.Pos) (before : List Char) : Config.Pos :=
  { line := start.line + before.count '\n'
    column := (if '\n' ∈ before then 1 else start.column) +
      Config.clusterCount (encode (lastLine before))
    byte := start.byte + (encode before).length }

theorem lastLine_within {l : List Char} (hl : '\n' ∉ l) : lastLine l = l :=
  List.rtakeWhile_eq_self_iff.mpr fun _ hc => decide_eq_true fun heq => hl (heq ▸ hc)

theorem lastLine_line (l before : List Char) :
    lastLine (l ++ '\n' :: before) = lastLine before :=
  Config.rtakeWhile_line '\n' l before

theorem offLines_line (l before after : List Char) :
    OffLines (l ++ '\n' :: before) after ↔ OffLines before after := by
  rcases List.eq_nil_or_concat before with rfl | ⟨init, c, rfl⟩
  · simp [OffLines]
  · have hlast : (l ++ '\n' :: (init ++ [c])).getLast? = some c := by
      rw [← List.cons_append, ← List.append_assoc, List.getLast?_concat]
    rw [List.concat_eq_append]
    simp [OffLines, hlast]

theorem placeAfter_within {l : List Char} (hl : '\n' ∉ l) (start : Config.Pos) :
    placeAfter start l = ⟨start.line, start.column + Config.clusterCount (encode l),
      start.byte + (encode l).length⟩ := by
  simp [placeAfter, lastLine_within hl, List.count_eq_zero.mpr hl, hl]

theorem placeAfter_line {l : List Char} (hl : '\n' ∉ l) (start : Config.Pos)
    (before : List Char) :
    placeAfter start (l ++ '\n' :: before) =
      placeAfter ⟨start.line + 1, 1, start.byte + ((encode l).length + 1)⟩ before := by
  simp only [placeAfter, lastLine_line, encode_line, List.count_append, List.count_cons_self,
    List.count_eq_zero.mpr hl, List.length_append, List.length_cons, Config.Pos.mk.injEq]
  refine ⟨by omega, by simp, by omega⟩

theorem after_line_within {l : List Char} (hl : '\n' ∉ l) (p : Template.Pos) :
    (p.after l).line = p.line := by
  rw [Template.Pos.after_line, List.count_eq_zero.mpr hl]
  exact Int.add_zero _

/-- A position on the first line, which goes on after it with the given text. -/
theorem place?_head {file : String} {start stop : Config.Pos} {source : Bytes}
    {more : List Token} {l after : List Char} (hl : '\n' ∉ l)
    (hlines : lines file start source =
      ⟨dropReturn (encode (l ++ after)), ⟨file, start, stop⟩⟩ :: more) :
    (place? ((toTemplatePos file start).after l) source start).map (·.start) =
      if after = [] ∧ l.getLast? = some '\r' then none else some (placeAfter start l) := by
  have hfile : ((toTemplatePos file start).after l).file = file := Template.Pos.after_file _ _
  have hline : ((toTemplatePos file start).after l).line = start.line := after_line_within hl _
  have hcolumn : ((toTemplatePos file start).after l).column - start.column =
      (encode l).length := by
    rw [Template.Pos.after_column hl, Utf8.length_encode]
    simp only [toTemplatePos]
    omega
  rw [place?_eq_find?, hfile, hlines, hline]
  simp only [List.find?_cons_of_pos, beq_self_eq_true, Option.bind_some, hcolumn]
  -- the column is past the line exactly when the line lost its carriage return to it
  by_cases hcut : after = [] ∧ l.getLast? = some '\r'
  · have hlong : ¬ ((encode l).length ≤ (dropReturn (encode (l ++ after))).length) :=
      fun hle => (encode_le_dropReturn l after).mp hle hcut
    rw [placeOn, if_pos hcut, if_neg fun h => hlong (Int.ofNat_le.mp h.2)]
    rfl
  · have hfit := (encode_le_dropReturn l after).mpr hcut
    have htake : (dropReturn (encode (l ++ after))).take (encode l).length = encode l := by
      have hprefix : encode l <+: encode (l ++ after) :=
        Utf8.encode_append l after ▸ List.prefix_append _ _
      have hcutPrefix := List.prefix_of_prefix_length_le hprefix (dropReturn_isPrefix _) hfit
      exact (List.prefix_iff_eq_take.mp hcutPrefix).symm
    rw [placeOn, if_neg hcut, if_pos ⟨Int.natCast_nonneg _, Int.ofNat_le.mpr hfit⟩]
    rw [placeAfter_within hl]
    simp [rangeWithin, htake]

theorem offLines_last {l after : List Char} (hl : '\n' ∉ l) (hafter : '\n' ∉ after)
    (hne : l ++ after ≠ []) : OffLines l after ↔ after = [] ∧ l.getLast? = some '\r' := by
  have hend : l.getLast? ≠ some '\n' := fun h => hl (List.mem_of_getLast? h)
  have hhead : after.head? ≠ some '\n' := fun h => hafter (List.mem_of_head? h)
  have hempty : ¬ (after = [] ∧ l = []) := fun h => hne (by rw [h.1, h.2]; rfl)
  unfold OffLines
  tauto

theorem offLines_cons {l after : List Char} (hafter : '\n' ∉ after)
    (rest : List Char) :
    OffLines l (after ++ '\n' :: rest) ↔ after = [] ∧ l.getLast? = some '\r' := by
  have hhead : (after ++ '\n' :: rest).head? = some '\n' ↔ after = [] := by
    cases after with
    | nil => simp
    | cons c after =>
      simp only [List.cons_append, List.head?_cons, Option.some.injEq, reduceCtorEq, iff_false]
      rintro rfl
      exact hafter List.mem_cons_self
  have hne : after ++ '\n' :: rest ≠ [] := by simp
  unfold OffLines
  rw [hhead]
  tauto

/-- A position on the first line. -/
theorem place?_line (file : String) (start : Config.Pos) {l : List Char} (hl : '\n' ∉ l)
    (after : List Char) :
    (place? ((toTemplatePos file start).after l) (encode (l ++ after)) start).map (·.start) =
      if OffLines l after then none else some (placeAfter start l) := by
  by_cases hfeed : '\n' ∈ after
  · obtain ⟨first, rest, rfl, hfirst⟩ := List.eq_append_cons_of_mem hfeed
    have hline : '\n' ∉ l ++ first := by simp [hl, hfirst]
    have hlines := Config.lines_cons file start (lineFeed_not_mem_encode hline)
      (encode rest)
    rw [← encode_line, List.append_assoc] at hlines
    rw [place?_head hl hlines]
    simp only [offLines_cons hfirst]
  · by_cases hne : l ++ after = []
    · obtain ⟨rfl, rfl⟩ := List.append_eq_nil_iff.mp hne
      simp [place?, Config.lines_nil, OffLines]
    · have hline : '\n' ∉ l ++ after := by simp [hl, hfeed]
      have hbytes : encode (l ++ after) ≠ [] := List.ne_nil_of_length_pos (encode_pos hne)
      have hlines := Config.lines_last file start hbytes
        (lineFeed_not_mem_encode hline)
      rw [place?_head hl hlines]
      simp only [offLines_last hl hfeed hne]

/-- The position starts afresh behind a line feed. -/
theorem after_toTemplatePos_line (file : String) {l : List Char} (hl : '\n' ∉ l)
    (start : Config.Pos) (byte : Int) (before : List Char) :
    (toTemplatePos file start).after (l ++ '\n' :: before) =
      (toTemplatePos file ⟨start.line + 1, 1, byte⟩).after before := by
  have hline : ((toTemplatePos file start).after l).line = start.line := after_line_within hl _
  have hfile : ((toTemplatePos file start).after l).file = file := Template.Pos.after_file _ _
  rw [Template.Pos.after_append, Template.Pos.after_cons, Template.Pos.pass, if_pos rfl, hline,
    hfile]
  rfl

/-- The search for a later line passes over the first. -/
theorem place?_rest {p : Template.Pos} {start : Config.Pos} (hp : p.line ≠ start.line)
    {l : List Char} (hl : '\n' ∉ l) (rest : List Char) :
    place? p (encode (l ++ '\n' :: rest)) start =
      place? p (encode rest) ⟨start.line + 1, 1, start.byte + ((encode l).length + 1)⟩ := by
  have hlines := Config.lines_cons p.file start (lineFeed_not_mem_encode hl)
    (encode rest)
  rw [place?_eq_find?, place?_eq_find?, encode_line, hlines, List.find?_cons_of_neg]
  simpa using hp.symm

/-- **Where the position after the first part of a text is placed.** -/
theorem place?_after (file : String) (start : Config.Pos) (before after : List Char) :
    (place? ((toTemplatePos file start).after before) (encode (before ++ after)) start).map
        (·.start) =
      if OffLines before after then none else some (placeAfter start before) := by
  induction before using lineInduction '\n' generalizing start with
  | line l hl => exact place?_line file start hl after
  | cons l before hl ih =>
    have hlater : ((toTemplatePos file start).after (l ++ '\n' :: before)).line ≠ start.line := by
      -- lines only go up, and there is one line feed already
      rw [after_toTemplatePos_line file hl start 0, Template.Pos.after_line]
      simp only [toTemplatePos]
      omega
    rw [List.append_assoc, List.cons_append, place?_rest hlater hl,
      after_toTemplatePos_line file hl start, ih, placeAfter_line hl]
    simp only [offLines_line]

/-! ### Offsets -/

theorem offLines_take_drop {cs : List Char} {offset : Nat} (h : offset ≤ cs.length) :
    OffLines (cs.take offset) (cs.drop offset) ↔
      (offset = cs.length ∧ (cs.take offset = [] ∨ (cs.take offset).getLast? = some '\n')) ∨
        (0 < offset ∧ cs[offset - 1]? = some '\r' ∧
          (offset = cs.length ∨ cs[offset]? = some '\n')) := by
  have hend : cs.drop offset = [] ↔ offset = cs.length := by
    rw [List.drop_eq_nil_iff]
    omega
  have hlast : (cs.take offset).getLast? = some '\r' ↔
      0 < offset ∧ cs[offset - 1]? = some '\r' := by
    rw [List.getLast?_take]
    cases offset with
    | zero => simp
    | succ n =>
      have hget : cs[n]? = some cs[n] := List.getElem?_eq_getElem h
      simp [hget]
  unfold OffLines
  rw [hend, hlast, List.head?_drop, and_assoc]

/-- **Offsets survive the way through positions that count bytes in a line.**  The range
of an offset is lost only at the end of a text that has no line there, and behind a
carriage return that ends a line.  Otherwise it starts as many lines and bytes into the
text as the offset does, and as many clusters into the line. -/
theorem rangeOf_locate (text : String) (file : String) (start : Config.Pos) {offset : Nat}
    (h : offset ≤ text.toList.length) :
    let p := (toTemplatePos file start).locate text.toList offset
    let source := encode text.toList
    let before := text.toList.take offset
    let lost := (offset = text.toList.length ∧ (before = [] ∨ before.getLast? = some '\n')) ∨
      (0 < offset ∧ text.toList[offset - 1]? = some '\r' ∧
        (offset = text.toList.length ∨ text.toList[offset]? = some '\n'))
    (place? p source start = none ↔ lost) ∧
    (lost → rangeOf p source start = .placeholder file) ∧
    (¬ lost → (rangeOf p source start).start =
      { line := start.line + before.count '\n'
        column := (if '\n' ∈ before then 1 else start.column) +
          Config.clusterCount (encode (lastLine before))
        byte := start.byte + (encode before).length }) := by
  intro p source before lost
  have hplace : (place? p source start).map (·.start) =
      if OffLines before (text.toList.drop offset) then none
      else some (placeAfter start before) := by
    have hafter := place?_after file start before (text.toList.drop offset)
    rwa [List.take_append_drop] at hafter
  have hlost : OffLines before (text.toList.drop offset) ↔ lost := offLines_take_drop h
  have hfile : p.file = file := Template.Pos.after_file _ _
  refine ⟨?_, ?_, ?_⟩
  · have hnone : place? p source start = none ↔
        (place? p source start).map (·.start) = none := Option.map_eq_none_iff.symm
    rw [hnone, hplace, ← hlost]
    simp
  · intro hl
    rw [if_pos (hlost.mpr hl), Option.map_eq_none_iff] at hplace
    rw [rangeOf, hplace, hfile]
    rfl
  · intro hl
    rw [if_neg (hlost.not.mpr hl)] at hplace
    obtain ⟨range, hrange, hstart⟩ := Option.map_eq_some_iff.mp hplace
    rw [rangeOf, hrange]
    exact hstart

/-- In the second line, where a character takes two bytes and the first line ends in a
carriage return, which has no range behind it. -/
theorem rangeOf_locate_second_line :
    (4 ≤ "é\r\nñx".toList.length ∧
      (rangeOf ((toTemplatePos "main.tf" ⟨3, 7, 40⟩).locate "é\r\nñx".toList 4)
        (encode "é\r\nñx".toList) ⟨3, 7, 40⟩).start = ⟨4, 2, 46⟩) ∧
    (2 ≤ "é\r\nñx".toList.length ∧
      rangeOf ((toTemplatePos "main.tf" ⟨3, 7, 40⟩).locate "é\r\nñx".toList 2)
        (encode "é\r\nñx".toList) ⟨3, 7, 40⟩ = .placeholder "main.tf") := by
  have hfour : 4 ≤ "é\r\nñx".toList.length := by decide
  have htwo : 2 ≤ "é\r\nñx".toList.length := by decide
  refine ⟨⟨hfour, ?_⟩, htwo, ?_⟩
  · rw [(rangeOf_locate "é\r\nñx" "main.tf" ⟨3, 7, 40⟩ hfour).2.2 (by decide)]
    decide +kernel
  · exact (rangeOf_locate "é\r\nñx" "main.tf" ⟨3, 7, 40⟩ htwo).2.1 (by decide)

end Interpolation.Expression
