/-
What scanning a source for its lines gives.

* `Pos.advance_within` — bytes without a line feed move along the line, one column for
  each cluster;
* `clusterCount_ascii` — in ASCII these are as many as there are bytes;
* `lines_length`, `lines_getElem?` — how many tokens there are, and what each one is;
* `lines_exact` — there is a token for every row, with its text and at its place.

Design notes: a row is what stands between two line feeds.  It is described by what comes
before it, so that its place in the source is a length and needs no sum over the earlier
rows.  The position moves over the bytes of a row with the line feed, and the range covers
the token only, which is shorter by up to two bytes; `advance_line` and
`advance_within` say that the clusters of either do not get into each other's way.
-/
import Interpolation.Proofs.Config.Lines

namespace Interpolation.Config

/-- Bytes without a line feed move along the line. -/
theorem Pos.advance_within {bytes : Bytes} (h : 0x0A ∉ bytes) (p : Pos) :
    p.advance bytes = ⟨p.line, p.column + clusterCount bytes, p.byte + bytes.length⟩ := by
  have hfeed : '\n' ∉ Utf8.decode bytes := Utf8.lineFeed_mem_decode.not.mpr h
  have hwithin : ∀ cluster ∈ Grapheme.clusters (Utf8.decode bytes), '\n' ∉ cluster := by
    intro cluster hcluster hmem
    apply hfeed
    rw [← Grapheme.clusters_flatten (Utf8.decode bytes)]
    exact List.mem_flatten.mpr ⟨cluster, hcluster, hmem⟩
  rw [Pos.advance, Pos.foldl_pass_within hwithin, Grapheme.clusters_length, clusterCount]

/-- In ASCII a byte is a cluster, as long as no line feed joins a carriage return. -/
theorem clusterCount_ascii {bytes : Bytes} (hascii : ∀ b ∈ bytes, b < 0x80)
    (hfeed : 0x0A ∉ bytes) : clusterCount bytes = bytes.length := by
  have hsingle : ∀ c ∈ Utf8.decode bytes, Grapheme.IsSingle (Grapheme.role c) := by
    intro c hc
    have hne : c ≠ '\n' := by
      rintro rfl
      exact hfeed (Utf8.lineFeed_mem_decode.mp hc)
    rw [Utf8.decode_ascii hascii] at hc
    obtain ⟨b, hb, rfl⟩ := List.mem_map.mp hc
    have hlt : b.toNat < 0x80 := UInt8.lt_iff_toNat_lt.mp (hascii b hb)
    refine Grapheme.isSingle_role_ascii ?_ hne
    rw [Utf8.ofNat_code (.inl (by omega))]
    exact hlt
  rw [clusterCount, ← Grapheme.clusters_length, Grapheme.clusters_single hsingle,
    List.length_map, Utf8.decode_ascii hascii, List.length_map]

/-- What a token keeps of its row: all of it, or all but a carriage return at the end. -/
theorem dropReturn_cases (row : Bytes) :
    row = dropReturn row ++ [0x0D] ∨
      row = dropReturn row ∧ row.getLast? ≠ some 0x0D := by
  rw [dropReturn]
  by_cases hreturn : row.getLast? = some 0x0D
  · rw [if_pos hreturn]
    exact .inl (List.dropLast_append_getLast? _ hreturn).symm
  · rw [if_neg hreturn]
    exact .inr ⟨rfl, hreturn⟩

theorem not_mem_dropReturn {row : Bytes} (h : 0x0A ∉ row) : 0x0A ∉ dropReturn row := by
  intro hmem
  obtain hrow | ⟨hrow, -⟩ := dropReturn_cases row
  · exact h (by rw [hrow]; exact List.mem_append_left _ hmem)
  · exact h (by rw [hrow]; exact hmem)

/-- The row of a source with `i` line feeds before it. -/
structure IsRow (source : Bytes) (i : Nat) (before row : Bytes) : Prop where
  feeds : before.count 0x0A = i
  opens : before = [] ∨ before.getLast? = some 0x0A
  within : 0x0A ∉ row
  split : ∃ after, source = before ++ row ++ after ∧ (after = [] ∨ after.head? = some 0x0A)

/-- A source that is a row by itself. -/
theorem IsRow.of_not_mem {row : Bytes} (h : 0x0A ∉ row) : IsRow row 0 [] row where
  feeds := rfl
  opens := .inl rfl
  within := h
  split := ⟨[], by simp, .inl rfl⟩

/-- The row before the first line feed. -/
theorem IsRow.first {row : Bytes} (h : 0x0A ∉ row) (rest : Bytes) :
    IsRow (row ++ 0x0A :: rest) 0 [] row where
  feeds := rfl
  opens := .inl rfl
  within := h
  split := ⟨0x0A :: rest, by simp, .inr rfl⟩

/-- A row of what comes after the first line feed. -/
theorem IsRow.later {line rest : Bytes} (h : 0x0A ∉ line) {i : Nat} {before row : Bytes}
    (hrow : IsRow rest i before row) :
    IsRow (line ++ 0x0A :: rest) (i + 1) (line ++ 0x0A :: before) row where
  feeds := by
    have hline : line.count 0x0A = 0 := List.count_eq_zero.mpr h
    rw [List.count_append, List.count_cons_self, hline, hrow.feeds]
    omega
  opens := by
    right
    obtain rfl | hlast := hrow.opens
    · simp
    · rw [List.getLast?_append, List.getLast?_cons, hlast]
      rfl
  within := hrow.within
  split := by
    obtain ⟨after, hrest, hafter⟩ := hrow.split
    refine ⟨after, ?_, hafter⟩
    rw [hrest]
    simp

/-- The token is the row without a carriage return at its end, and its range begins at the
given place and covers the token. -/
structure Token.IsOfRow (token : Token) (file : String) (row : Bytes) (start : Pos) : Prop where
  bytes : row = token.bytes ++ [0x0D] ∨ row = token.bytes ∧ row.getLast? ≠ some 0x0D
  range : token.range = ⟨file, start,
    ⟨start.line, start.column + clusterCount token.bytes, start.byte + token.bytes.length⟩⟩

variable (file : String) (start : Pos)

theorem isOfRow_dropReturn {row : Bytes} (h : 0x0A ∉ row) :
    Token.IsOfRow ⟨dropReturn row, ⟨file, start, start.advance (dropReturn row)⟩⟩ file row
      start where
  bytes := dropReturn_cases row
  range := by rw [Pos.advance_within (not_mem_dropReturn h)]

/-- A splitter that always makes progress comes to the end of every source. -/
theorem scan_progress {split : Splitter} (h : ∀ bytes, bytes ≠ [] → (split bytes).1 ≠ 0)
    (source : Bytes) : (scan split file start source).stalled = false := by
  fun_induction scan split file start source with
  | case1 => rfl
  | case2 start b rest hstall => exact absurd hstall (h _ (by simp))
  | case3 start b rest hused used token more ih => exact ih

/-- There is a token for every line feed, and one for what comes after the last of them
unless that is nothing. -/
theorem lines_length (source : Bytes) :
    ∃ before rest, IsRow source (source.count 0x0A) before rest ∧
      (lines file start source).length = source.count 0x0A + if rest = [] then 0 else 1 := by
  induction source using lineInduction (0x0A : UInt8) generalizing start with
  | line l hl =>
    have hcount : l.count 0x0A = 0 := List.count_eq_zero.mpr hl
    rw [hcount]
    refine ⟨[], l, .of_not_mem hl, ?_⟩
    by_cases hne : l = []
    · rw [hne, lines_nil]
      rfl
    · rw [lines_last file start hne hl, if_neg hne]
      rfl
  | cons l rest hl ih =>
    obtain ⟨before, last, hrow, hlength⟩ := ih ⟨start.line + 1, 1, start.byte + (l.length + 1)⟩
    have hcount : (l ++ 0x0A :: rest).count 0x0A = rest.count 0x0A + 1 := by
      rw [List.count_append, List.count_cons_self, List.count_eq_zero.mpr hl, Nat.zero_add]
    rw [hcount]
    refine ⟨l ++ 0x0A :: before, last, hrow.later hl, ?_⟩
    rw [lines_cons file start hl, List.length_cons, hlength]
    omega

/-- The token of a row. -/
theorem lines_getElem? {source : Bytes} {i : Nat} {token : Token}
    (h : (lines file start source)[i]? = some token) :
    ∃ before row, IsRow source i before row ∧ token.IsOfRow file row
      ⟨start.line + i, if i = 0 then start.column else 1, start.byte + before.length⟩ := by
  induction source using lineInduction (0x0A : UInt8) generalizing start i with
  | line l hl =>
    by_cases hne : l = []
    · rw [hne, lines_nil] at h
      cases h
    · rw [lines_last file start hne hl] at h
      cases i with
      | zero =>
        obtain rfl := Option.some.inj h
        refine ⟨[], l, .of_not_mem hl, ?_⟩
        simpa using isOfRow_dropReturn file start hl
      | succ i => cases h
  | cons l rest hl ih =>
    rw [lines_cons file start hl] at h
    cases i with
    | zero =>
      obtain rfl := Option.some.inj h
      refine ⟨[], l, .first hl rest, ?_⟩
      simpa using isOfRow_dropReturn file start hl
    | succ i =>
      obtain ⟨before, row, hrow, htoken⟩ := ih _ h
      refine ⟨l ++ 0x0A :: before, row, hrow.later hl, ?_⟩
      -- the place within the rest, measured from the beginning of the whole
      have hplace : (⟨start.line + 1 + i, if i = 0 then 1 else 1,
            start.byte + (l.length + 1) + before.length⟩ : Pos) =
          ⟨start.line + (i + 1 : Nat), if i + 1 = 0 then start.column else 1,
            start.byte + (l ++ 0x0A :: before).length⟩ := by
        rw [ite_self, if_neg (Nat.succ_ne_zero i), List.length_append, List.length_cons]
        congr 1 <;> omega
      rw [← hplace]
      exact htoken

/-- **Scanning for lines neither loses nor misplaces text.**  The scan comes to the end,
there are as many tokens as line feeds, or one more for a rest that is not empty, and each
token is its row without a carriage return at the end, at the place the row has in the
source. -/
theorem lines_exact (source : Bytes) :
    (scan splitLine file start source).stalled = false ∧
      (∃ before rest, IsRow source (source.count 0x0A) before rest ∧
        (lines file start source).length = source.count 0x0A + if rest = [] then 0 else 1) ∧
      ∀ i token, (lines file start source)[i]? = some token →
        ∃ before row, IsRow source i before row ∧ token.IsOfRow file row
          ⟨start.line + i, if i = 0 then start.column else 1, start.byte + before.length⟩ := by
  refine ⟨scan_progress file start (fun _ => splitLine_pos) source, lines_length file start source,
    ?_⟩
  intro i token h
  exact lines_getElem? file start h

/-- The second line of a source in which a sequence breaks off before the end of the first
one, and which holds a carriage return that ends nothing. -/
theorem lines_exact_second :
    let source : Bytes := [0x61, 0xE2, 0x82, 0x0D, 0x0A, 0x0D, 0x62, 0x0D, 0x0A, 0x63]
    ∃ before row, IsRow source 1 before row ∧
      Token.IsOfRow ⟨[0x0D, 0x62], ⟨"main", ⟨4, 1, 12⟩, ⟨4, 3, 14⟩⟩⟩ "main" row
        ⟨4, 1, 7 + before.length⟩ := by
  intro source
  have hsecond : (lines "main" ⟨3, 5, 7⟩ source)[1]? =
      some ⟨[0x0D, 0x62], ⟨"main", ⟨4, 1, 12⟩, ⟨4, 3, 14⟩⟩⟩ := by
    have hrows : source =
        [0x61, 0xE2, 0x82, 0x0D] ++ 0x0A :: ([0x0D, 0x62, 0x0D] ++ 0x0A :: [0x63]) := rfl
    have hcount : clusterCount [0x0D, 0x62] = 2 := by decide +kernel
    rw [hrows, lines_cons _ _ (by decide), lines_cons _ _ (by decide), List.getElem?_cons_succ,
      List.getElem?_cons_zero]
    show some (Token.mk [0x0D, 0x62] ⟨"main", ⟨4, 1, 12⟩, Pos.advance ⟨4, 1, 12⟩ [0x0D, 0x62]⟩) = _
    rw [Pos.advance_within (by decide), hcount]
    rfl
  exact (lines_exact "main" ⟨3, 5, 7⟩ source).2.2 1 _ hsecond

end Interpolation.Config
