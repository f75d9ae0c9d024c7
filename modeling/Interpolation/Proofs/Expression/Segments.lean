/-
What a name is cut into, and where.

* `gather_whole` — the segments before an empty one are gathered, each as the step of its
  place (`Placed`);
* `traversalOf_splitOn` — a text is a path exactly when cutting it at its dots leaves no
  segment empty; else the dot is reported that the first empty segment makes wrong.

Design notes: a segment stands behind the segments before it and their dots, so its offset
is the sum of their lengths, in bytes, with one for each dot (`offsetOf`).  The steps are
gathered from left to right and an empty segment is noticed at the dot behind it.  If it is
the last one there is none, and the dot in front of it is to blame.  The induction is on the
segments from the end, because a step only depends on those before it.
-/
import Interpolation.Proofs.Expression.Naming
import Interpolation.Proofs.Text.Decoding
import Mathlib.Data.List.Induction

namespace Interpolation.Expression

open Config (Range Step scan splitStep)
open Utf8 (byteLength encode)

/-! ### Places of segments -/

/-- The bytes before a segment: the segments before it, each with the dot behind it. -/
def offsetOf (segments : List (List Char)) (i : Nat) : Nat :=
  ((segments.take i).map fun s => byteLength s + 1).sum

/-- A range of the given length inside another one, at an offset in bytes. -/
structure Spans (whole inner : Range) (offset length : Nat) : Prop where
  file_eq : inner.file = whole.file
  start_eq : inner.start.byte = whole.start.byte + offset
  stop_eq : inner.stop.byte = inner.start.byte + length

/-- The step of a segment: the first one is the root, and the others are keys. -/
def segmentStep (isFirst : Bool) (segment : List Char) (range : Range) : Step :=
  if isFirst then .root (String.ofList segment) range
  else .index (.text (String.ofList segment)) range

/-- The steps are those of the segments, in order, each with the range of its segment. -/
def Placed (range : Range) (segments : List (List Char)) (steps : List Step) : Prop :=
  steps.length = segments.length ∧
    ∀ (i : Nat) s, segments[i]? = some s →
      ∃ r, steps[i]? = some (segmentStep (i == 0) s r) ∧
        Spans range r (offsetOf segments i) (byteLength s)

/-- The dot behind a segment is to blame: it is the first with an empty segment before it,
or the last of all if there is no such dot. -/
def IsOffending (segments : List (List Char)) (i : Nat) : Prop :=
  i + 1 < segments.length ∧
    (segments[i]? = some [] ∧ (∀ j < i, segments[j]? ≠ some []) ∨
      i + 2 = segments.length ∧ ∀ j ≤ i, segments[j]? ≠ some [])

variable {range : Range} {good after : List (List Char)} {s : List Char} {steps : List Step}
variable {separator : Option Range} {pos : Config.Pos} {file : String}

theorem offsetOf_append {i : Nat} (h : i ≤ good.length) :
    offsetOf (good ++ after) i = offsetOf good i := by
  rw [offsetOf, List.take_append_of_le_length h, offsetOf]

theorem offsetOf_concat : offsetOf (good ++ [s]) (good.length + 1) =
    offsetOf good good.length + (byteLength s + 1) := by
  simp [offsetOf, List.take_of_length_le]

theorem Placed.concat (h : Placed range good steps) {r : Range}
    (hr : Spans range r (offsetOf good good.length) (byteLength s)) :
    Placed range (good ++ [s]) (steps ++ [segmentStep steps.isEmpty s r]) := by
  obtain ⟨hlength, hsteps⟩ := h
  refine ⟨by simp [hlength], fun i t ht => ?_⟩
  rcases Nat.lt_trichotomy i good.length with hi | rfl | hi
  · -- the steps gathered so far
    rw [List.getElem?_append_left hi] at ht
    obtain ⟨r', hr', hspans⟩ := hsteps i t ht
    rw [offsetOf_append hi.le, List.getElem?_append_left (hlength ▸ hi)]
    exact ⟨r', hr', hspans⟩
  · rw [List.getElem?_concat_length] at ht
    obtain rfl : s = t := Option.some.inj ht
    rw [offsetOf_append le_rfl, ← hlength, List.getElem?_concat_length]
    refine ⟨r, ?_, hlength ▸ hr⟩
    cases steps <;> rfl
  · rw [List.getElem?_eq_none (by simp; omega)] at ht
    cases ht

/-! ### Gathering segments -/

/-- The bytes of segments, each with a dot behind it. -/
def encodeDotted (segments : List (List Char)) : Bytes :=
  segments.flatMap fun s => encode s ++ [0x2E]

/-- A segment is cut off and becomes a step. -/
theorem gather_segment (hs : s ≠ []) (hdot : '.' ∉ s) {rest : Bytes}
    (hrest : ∀ b ∈ rest.head?, b = 0x2E) :
    gather steps separator (scan splitStep file pos (encode s ++ rest)).tokens =
      gather (steps ++ [segmentStep steps.isEmpty s ⟨file, pos, pos.advance (encode s)⟩]) none
        (scan splitStep file (pos.advance (encode s)) rest).tokens := by
  have hdotless := isDotless_encode hs hdot
  rw [Config.scan_segment hdotless hrest, gather, if_neg hdotless.ne_dot, stepOf,
    Utf8.decode_encode]
  rfl

/-- A dot waits for a segment. -/
theorem gather_dot (hsteps : steps ≠ []) {rest : Bytes} :
    gather steps none (scan splitStep file pos (0x2E :: rest)).tokens =
      gather steps (some ⟨file, pos, pos.advance [0x2E]⟩)
        (scan splitStep file (pos.advance [0x2E]) rest).tokens := by
  rw [Config.scan_dot, gather, if_pos rfl, if_neg]
  cases steps with
  | nil => exact absurd rfl hsteps
  | cons => simp

/-- A dot without a segment before it is reported. -/
theorem gather_dot_error (h : separator.isSome || steps.isEmpty) {rest : Bytes} :
    gather steps separator (scan splitStep file pos (0x2E :: rest)).tokens =
      .error (.emptySegment ⟨file, pos, pos.advance [0x2E]⟩) := by
  rw [Config.scan_dot, gather, if_pos rfl, if_pos h]

/-- What has been gathered when the segments so far have been read, each with a dot behind
it: their steps, and the last dot, unless there is no segment yet. -/
structure Gathered (range : Range) (segments : List (List Char)) (pos : Config.Pos)
    (steps : List Step) (separator : Option Range) : Prop where
  placed : Placed range segments steps
  byte_eq : pos.byte = range.start.byte + offsetOf segments segments.length
  none_of_nil : segments = [] → separator = none
  dot_of_ne : segments ≠ [] → ∃ dot, separator = some dot ∧ dot.file = range.file ∧
    dot.start.byte = pos.byte - 1 ∧ dot.stop.byte = pos.byte

theorem Gathered.isEmpty_eq (h : Gathered range good pos steps separator) :
    steps.isEmpty = good.isEmpty := by
  have hlength := h.placed.1
  cases steps <;> cases good <;> simp_all

theorem Gathered.spans (h : Gathered range good pos steps separator) (s : List Char) :
    Spans range ⟨range.file, pos, pos.advance (encode s)⟩ (offsetOf good good.length)
      (byteLength s) := by
  refine ⟨rfl, h.byte_eq, ?_⟩
  rw [Config.Pos.advance_byte, Utf8.length_encode]

theorem Gathered.concat (h : Gathered range good pos steps separator) (s : List Char) :
    Gathered range (good ++ [s]) ((pos.advance (encode s)).advance [0x2E])
      (steps ++ [segmentStep steps.isEmpty s ⟨range.file, pos, pos.advance (encode s)⟩])
      (some ⟨range.file, pos.advance (encode s), (pos.advance (encode s)).advance [0x2E]⟩) := by
  refine ⟨h.placed.concat (h.spans s), ?_, by simp, fun _ => ⟨_, rfl, rfl, ?_, rfl⟩⟩
  · have hbyte := h.byte_eq
    rw [List.length_append, List.length_singleton, offsetOf_concat]
    simp only [Config.Pos.advance_byte, Utf8.length_encode, List.length_singleton]
    omega
  · simp only [Config.Pos.advance_byte, List.length_singleton]
    omega

/-- Segments that are not empty are gathered, whatever follows. -/
theorem gather_whole (range : Range) (hgood : ∀ s ∈ good, s ≠ [] ∧ '.' ∉ s) (rest : Bytes) :
    ∃ pos steps separator, Gathered range good pos steps separator ∧
      gather [] none
          (scan splitStep range.file range.start (encodeDotted good ++ rest)).tokens =
        gather steps separator (scan splitStep range.file pos rest).tokens := by
  induction good using List.reverseRecOn generalizing rest with
  | nil =>
    refine ⟨range.start, [], none, ⟨⟨rfl, by simp⟩, by simp [offsetOf], fun _ => rfl, ?_⟩, rfl⟩
    exact fun h => absurd rfl h
  | append_singleton good s ih =>
    obtain ⟨hinit, hlast⟩ := List.forall_mem_append.mp hgood
    obtain ⟨hs, hdot⟩ := hlast s (List.mem_singleton_self s)
    obtain ⟨pos, steps, separator, hgathered, heq⟩ := ih hinit (encode s ++ 0x2E :: rest)
    have hbytes : encodeDotted (good ++ [s]) ++ rest =
        encodeDotted good ++ (encode s ++ 0x2E :: rest) := by
      simp [encodeDotted]
    refine ⟨_, _, _, hgathered.concat s, ?_⟩
    rw [hbytes, heq, gather_segment hs hdot (by simp), gather_dot (by simp)]

/-! ### The segments of a name -/

theorem intercalate_append (good after : List (List Char)) (s : List Char) :
    ['.'].intercalate (good ++ s :: after) =
      good.flatMap (· ++ ['.']) ++ ['.'].intercalate (s :: after) := by
  induction good with
  | nil => rfl
  | cons t good ih =>
    obtain ⟨u, more, hmore⟩ : ∃ u more, good ++ s :: after = u :: more := by
      cases good <;> simp
    rw [List.cons_append, hmore, List.intercalate_cons_cons, ← hmore, ih, List.flatMap_cons,
      ← List.append_assoc]

/-- The bytes of a text that is cut into segments. -/
theorem encode_of_splitOn {cs : List Char} (h : cs.splitOn '.' = good ++ s :: after) :
    encode cs = encodeDotted good ++ encode (['.'].intercalate (s :: after)) := by
  have hcs : ['.'].intercalate (cs.splitOn '.') = cs := List.intercalate_splitOn '.'
  rw [← hcs, h, intercalate_append, Utf8.encode_append]
  simp [encode, encodeDotted, List.flatMap_assoc]
  rfl

theorem byteLength_flatMap (segments : List (List Char)) :
    byteLength (segments.flatMap (· ++ ['.'])) =
      (segments.map fun s => byteLength s + 1).sum := by
  induction segments with
  | nil => rfl
  | cons s rest ih =>
    rw [List.flatMap_cons, Utf8.byteLength_append, Utf8.byteLength_append, ih]
    rfl

/-- A segment stands in the text at its offset. -/
theorem standsAt_offsetOf {cs : List Char} {i : Nat} (h : (cs.splitOn '.')[i]? = some s) :
    ∃ before after, cs = before ++ s ++ after ∧
      byteLength before = offsetOf (cs.splitOn '.') i := by
  obtain ⟨hi, hs⟩ := List.getElem?_eq_some_iff.mp h
  have hcut : cs.splitOn '.' = (cs.splitOn '.').take i ++ s :: (cs.splitOn '.').drop (i + 1) := by
    rw [← hs, List.getElem_cons_drop, List.take_append_drop]
  obtain ⟨tail, htail⟩ : ∃ tail,
      ['.'].intercalate (s :: (cs.splitOn '.').drop (i + 1)) = s ++ tail := by
    cases (cs.splitOn '.').drop (i + 1) with
    | nil => exact ⟨[], by simp⟩
    | cons t rest => exact ⟨_, by rw [List.intercalate_cons_cons, List.append_assoc]⟩
  refine ⟨((cs.splitOn '.').take i).flatMap (· ++ ['.']), tail, ?_, byteLength_flatMap _⟩
  rw [List.append_assoc, ← htail, ← intercalate_append, ← hcut, List.intercalate_splitOn]

theorem dot_notMem_splitOn (cs : List Char) : ∀ s ∈ cs.splitOn '.', '.' ∉ s := by
  induction cs with
  | nil => simp
  | cons c cs ih =>
    obtain ⟨s, rest, hrest⟩ := List.exists_cons_of_ne_nil (List.splitOn_ne_nil '.' cs)
    rw [List.splitOn_cons_eq_if_modifyHead, hrest]
    rw [hrest] at ih
    obtain ⟨hs, hothers⟩ := List.forall_mem_cons.mp ih
    by_cases hc : c = '.'
    · rw [if_pos (beq_iff_eq.mpr hc)]
      exact List.forall_mem_cons.mpr ⟨List.not_mem_nil, ih⟩
    · rw [if_neg (by simpa using hc), List.modifyHead_cons]
      refine List.forall_mem_cons.mpr ⟨?_, hothers⟩
      simp [hs, Ne.symm hc]

/-- Only the empty text has nothing but an empty segment. -/
theorem eq_nil_of_splitOn {cs : List Char} (h : cs.splitOn '.' = [[]]) : cs = [] := by
  have hcs : ['.'].intercalate (cs.splitOn '.') = cs := List.intercalate_splitOn '.'
  rw [← hcs, h]
  rfl

theorem traversalOf_empty (range : Range) : traversalOf "" range = .error .empty := by
  simp [traversalOf, gather, bind, Except.bind, throw, throwThe, MonadExceptOf.throw]

variable {name : String}

/-- Segments that are not empty give a path. -/
theorem traversalOf_good (h : name.toList.splitOn '.' = good ++ [s])
    (hgood : ∀ t ∈ good ++ [s], t ≠ [] ∧ '.' ∉ t) :
    ∃ t, traversalOf name range = .ok t ∧ Placed range (good ++ [s]) t.steps := by
  obtain ⟨hinit, hlast⟩ := List.forall_mem_append.mp hgood
  obtain ⟨hs, hdot⟩ := hlast s (List.mem_singleton_self s)
  have hname : encode name.toList = encodeDotted good ++ encode s := by
    rw [encode_of_splitOn h, List.intercalate_singleton]
  obtain ⟨pos, steps, separator, hgathered, heq⟩ := gather_whole range hinit (encode s)
  -- no dot follows the last segment, so it is cut off on its own
  have hwhole : gather steps separator (scan splitStep range.file pos (encode s ++ [])).tokens =
      gather _ none (scan splitStep range.file (pos.advance (encode s)) []).tokens :=
    gather_segment hs hdot (by simp)
  rw [List.append_nil, Config.scan_nil, gather] at hwhole
  have hplaced := hgathered.placed.concat (hgathered.spans s)
  obtain ⟨first, rest, hsteps⟩ := List.exists_cons_of_ne_nil (List.concat_ne_nil
    (segmentStep steps.isEmpty s ⟨range.file, pos, pos.advance (encode s)⟩) steps)
  refine ⟨⟨first, rest⟩, ?_, ?_⟩
  · rw [← hname] at heq
    rw [traversalOf_eq, heq, hwhole, hsteps]
  · rw [hsteps] at hplaced
    exact hplaced

/-- The first empty segment has a dot behind it, which is reported. -/
theorem traversalOf_empty_inside (h : name.toList.splitOn '.' = good ++ [] :: s :: after)
    (hgood : ∀ t ∈ good, t ≠ [] ∧ '.' ∉ t) :
    ∃ dot, traversalOf name range = .error (.emptySegment dot) ∧
      Spans range dot (offsetOf good good.length) 1 := by
  have hname : encode name.toList =
      encodeDotted good ++ 0x2E :: encode (['.'].intercalate (s :: after)) := by
    rw [encode_of_splitOn h, List.intercalate_cons_cons, Utf8.encode_append]
    rfl
  obtain ⟨pos, steps, separator, hgathered, heq⟩ := gather_whole range hgood
    (0x2E :: encode (['.'].intercalate (s :: after)))
  have hwaits : separator.isSome || steps.isEmpty := by
    rw [hgathered.isEmpty_eq]
    by_cases hnil : good = []
    · simp [hnil]
    · obtain ⟨dot, rfl, _⟩ := hgathered.dot_of_ne hnil
      rfl
  refine ⟨⟨range.file, pos, pos.advance [0x2E]⟩, ?_, rfl, hgathered.byte_eq, rfl⟩
  rw [← hname] at heq
  rw [traversalOf_eq, heq, gather_dot_error hwaits]

/-- An empty segment at the end is reported at the dot in front of it. -/
theorem traversalOf_empty_last (h : name.toList.splitOn '.' = good ++ [s] ++ [[]])
    (hgood : ∀ t ∈ good ++ [s], t ≠ [] ∧ '.' ∉ t) :
    ∃ dot, traversalOf name range = .error (.emptySegment dot) ∧
      Spans range dot (offsetOf good good.length + byteLength s) 1 := by
  have hname : encode name.toList = encodeDotted (good ++ [s]) ++ [] := by
    rw [encode_of_splitOn h, List.intercalate_singleton]
    rfl
  obtain ⟨pos, steps, separator, hgathered, heq⟩ := gather_whole range hgood []
  obtain ⟨dot, rfl, hfile, hstart, hstop⟩ := hgathered.dot_of_ne (by simp)
  have hbyte := hgathered.byte_eq
  rw [List.length_append, List.length_singleton, offsetOf_concat] at hbyte
  refine ⟨dot, ?_, hfile, by omega, by simp; omega⟩
  rw [← hname, Config.scan_nil, gather] at heq
  rw [traversalOf_eq, heq]

/-- A dot to blame stands in a text that is not empty. -/
theorem IsOffending.ne_empty {i : Nat} (h : IsOffending (name.toList.splitOn '.') i) :
    name ≠ "" := by
  rintro rfl
  have hlength : i + 1 < 1 := h.1
  omega

theorem isOffending_inside (hgood : [] ∉ good) :
    IsOffending (good ++ [] :: s :: after) good.length := by
  refine ⟨by simp, .inl ⟨by simp, fun j hj hempty => ?_⟩⟩
  rw [List.getElem?_append_left hj] at hempty
  exact hgood (List.mem_of_getElem? hempty)

theorem isOffending_last (hgood : [] ∉ good ++ [s]) :
    IsOffending (good ++ [s] ++ [[]]) good.length := by
  refine ⟨by simp, .inr ⟨by simp, fun j hj hempty => ?_⟩⟩
  rw [List.getElem?_append_left (by simp; omega)] at hempty
  exact hgood (List.mem_of_getElem? hempty)

/-- What a text comes to as a name: a path, nothing at all, or a name with a dot too many. -/
theorem traversalOf_outcome (name : String) (range : Range) :
    ([] ∉ name.toList.splitOn '.' ∧
        ∃ t, traversalOf name range = .ok t ∧ Placed range (name.toList.splitOn '.') t.steps) ∨
      (name = "" ∧ traversalOf name range = .error .empty) ∨
      ([] ∈ name.toList.splitOn '.' ∧
        ∃ dot i s, traversalOf name range = .error (.emptySegment dot) ∧
          IsOffending (name.toList.splitOn '.') i ∧ (name.toList.splitOn '.')[i]? = some s ∧
            Spans range dot (offsetOf (name.toList.splitOn '.') i + byteLength s) 1) := by
  have hdotless := dot_notMem_splitOn name.toList
  by_cases hempty : [] ∈ name.toList.splitOn '.'
  · obtain ⟨good, after, hsegments, hgood⟩ := List.eq_append_cons_of_mem hempty
    have hwhole : ∀ t ∈ good, t ≠ [] ∧ '.' ∉ t := by
      intro t ht
      refine ⟨fun hnil => hgood (hnil ▸ ht), hdotless t ?_⟩
      rw [hsegments]
      exact List.mem_append_left _ ht
    rcases after with _ | ⟨s, after⟩
    · rcases List.eq_nil_or_concat good with rfl | ⟨good, s, rfl⟩
      · -- there is nothing but an empty segment
        obtain rfl := String.toList_eq_nil_iff.mp (eq_nil_of_splitOn hsegments)
        exact .inr (.inl ⟨rfl, traversalOf_empty range⟩)
      · rw [List.concat_eq_append] at hsegments hgood hwhole
        obtain ⟨dot, herror, hspans⟩ := traversalOf_empty_last hsegments hwhole
        refine .inr (.inr ⟨hempty, dot, good.length, s, herror, ?_, ?_, ?_⟩)
        · rw [hsegments]
          exact isOffending_last hgood
        · simp [hsegments]
        · rw [hsegments, List.append_assoc, offsetOf_append le_rfl]
          exact hspans
    · obtain ⟨dot, herror, hspans⟩ := traversalOf_empty_inside hsegments hwhole
      refine .inr (.inr ⟨hempty, dot, good.length, [], herror, ?_, ?_, ?_⟩)
      · rw [hsegments]
        exact isOffending_inside hgood
      · simp [hsegments]
      · rw [hsegments, offsetOf_append le_rfl]
        exact hspans
  · obtain ⟨good, s, hsegments⟩ := (List.eq_nil_or_concat _).resolve_left
      (List.splitOn_ne_nil '.' name.toList)
    rw [List.concat_eq_append] at hsegments
    have hwhole : ∀ t ∈ good ++ [s], t ≠ [] ∧ '.' ∉ t := by
      intro t ht
      rw [← hsegments] at ht
      exact ⟨fun hnil => hempty (hnil ▸ ht), hdotless t ht⟩
    obtain ⟨t, ht, hplaced⟩ := traversalOf_good hsegments hwhole
    exact .inl ⟨hempty, t, ht, hsegments ▸ hplaced⟩

/-- **A text is a path exactly when cutting it at its dots leaves no segment empty.**  Then
its steps are those of the segments, each with the range of its segment.  Else there is a
single error: at the whole range for the empty text, and for any other text at the dot that
an empty segment makes wrong.  Offsets are those at which the segments stand in the text. -/
theorem traversalOf_splitOn (name : String) (range : Range) :
    let segments := name.toList.splitOn '.'
    (∀ (i : Nat) s, segments[i]? = some s → ∃ before after,
        name.toList = before ++ s ++ after ∧ byteLength before = offsetOf segments i) ∧
      ((∃ t, traversalOf name range = .ok t) ↔ name ≠ "" ∧ [] ∉ segments) ∧
      (∀ t, traversalOf name range = .ok t → Placed range segments t.steps) ∧
      ∀ e, traversalOf name range = .error e →
        Reference.ofName name range = .failing [e.diagnostic range] range ∧
          (e.diagnostic range).severity = .error ∧
          ∃ subject, (e.diagnostic range).subject = some subject ∧
            (name = "" ∧ subject = range ∨
              name ≠ "" ∧ ∃ i s, IsOffending segments i ∧ segments[i]? = some s ∧
                Spans range subject (offsetOf segments i + byteLength s) 1) := by
  intro segments
  have hfailing : ∀ {e}, traversalOf name range = .error e →
      Reference.ofName name range = .failing [e.diagnostic range] range := by
    intro e he
    rw [Reference.ofName, he]
  refine ⟨fun i s => standsAt_offsetOf, ?_⟩
  rcases traversalOf_outcome name range with ⟨hwhole, t, ht, hplaced⟩ | ⟨hname, herror⟩ |
    ⟨hempty, dot, i, s, herror, hoffending, hs, hspans⟩
  · have hname : name ≠ "" := by
      rintro rfl
      exact hwhole (List.mem_singleton_self [])
    refine ⟨iff_of_true ⟨t, ht⟩ ⟨hname, hwhole⟩, fun t' ht' => ?_, fun e he => ?_⟩
    · cases ht.symm.trans ht'
      exact hplaced
    · cases ht.symm.trans he
  · refine ⟨iff_of_false ?_ fun h => h.1 hname, fun t ht => ?_, fun e he => ?_⟩
    · rintro ⟨t, ht⟩
      cases herror.symm.trans ht
    · cases herror.symm.trans ht
    · cases herror.symm.trans he
      exact ⟨hfailing he, rfl, range, rfl, .inl ⟨hname, rfl⟩⟩
  · refine ⟨iff_of_false ?_ fun h => h.2 hempty, fun t ht => ?_, fun e he => ?_⟩
    · rintro ⟨t, ht⟩
      cases herror.symm.trans ht
    · cases herror.symm.trans ht
    · cases herror.symm.trans he
      exact ⟨hfailing he, rfl, dot, rfl, .inr ⟨hoffending.ne_empty, i, s, hoffending, hs, hspans⟩⟩

end Interpolation.Expression
