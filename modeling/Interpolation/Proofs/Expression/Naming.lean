/-
Names are reported where they are written.

* `traversalOf_covers` — a name that can be written leads along a path, and each step of it
  is covered by its range;
* `covers_nameRange` — the range of a name that stands in a text covers it;
* `parse_names` — so it is for every name of an expression.

Design notes: a name is cut at its dots into segments that are steps of a path.  The range
of a step is counted from that of the name, and that from the beginning of the text, so what
is covered inside the name is covered inside the text (`Covers.trans`).
-/
import Interpolation.Proofs.Config.Covering
import Interpolation.Proofs.Expression.Dependency
import Interpolation.Proofs.Expression.Reference
import Interpolation.Proofs.Expression.Sites
import Interpolation.Proofs.Template.Adoption
import Interpolation.Proofs.Template.Layout

namespace Interpolation.Expression

open Config (Covers IsDotless Range Step StandsAt Token scan splitStep)
open Template (IsName Node Startable)
open Utf8 (encode)

/-! ### Names and their segments -/

theorem isDotless_encode {cs : List Char} (hne : cs ≠ []) (hdot : '.' ∉ cs) :
    IsDotless (encode cs) :=
  ⟨List.ne_nil_of_length_pos (encode_pos hne), (Utf8.mem_encode_iff (by decide)).not.mpr hdot⟩

theorem dot_notMem_of_continuesName {cs : List Char}
    (h : ∀ c ∈ cs, Template.Lexer.continuesName c = true) : '.' ∉ cs :=
  fun hdot => absurd (h '.' hdot) (by decide)

theorem encode_dotted (segments : List (List Char)) :
    encode (Template.dotted segments) = (segments.map encode).flatMap (0x2E :: ·) := by
  induction segments with
  | nil => rfl
  | cons segment rest ih =>
    have hcons : Template.dotted (segment :: rest) = '.' :: segment ++ Template.dotted rest := rfl
    rw [hcons, Utf8.encode_append, ih]
    rfl

/-- The bytes of a name are segments with dots between them. -/
theorem encode_name {name : List Char} (h : IsName name) :
    ∃ (first : Bytes) (segments : List Bytes), IsDotless first ∧ (∀ s ∈ segments, IsDotless s) ∧
      encode name = first ++ segments.flatMap (0x2E :: ·) := by
  obtain ⟨c, first, segments, hc, hfirst, hsegments, rfl⟩ := h
  refine ⟨encode (c :: first), segments.map encode, ?_, ?_, ?_⟩
  · refine isDotless_encode (List.cons_ne_nil _ _) fun hdot => ?_
    rcases List.mem_cons.mp hdot with rfl | hdot
    · cases hc
    · exact dot_notMem_of_continuesName hfirst hdot
  · intro s hs
    obtain ⟨segment, hsegment, rfl⟩ := List.mem_map.mp hs
    rcases hsegments segment hsegment with rfl | ⟨hne, hsegment⟩
    · exact isDotless_encode (by decide) (by decide)
    · exact isDotless_encode hne (dot_notMem_of_continuesName hsegment)
  · rw [Utf8.encode_append, encode_dotted]

/-- Segments with dots between them are gathered into steps. -/
theorem gather_segments {first : Bytes} (hfirst : IsDotless first) {segments : List Bytes}
    (hsegments : ∀ s ∈ segments, IsDotless s) (file : String) (pos : Config.Pos)
    (steps : List Step) (separator : Option Range) :
    ∃ step rest, gather steps separator
      (scan splitStep file pos (first ++ segments.flatMap (0x2E :: ·))).tokens =
        .ok (step :: rest) := by
  induction segments generalizing first pos steps separator with
  | nil =>
    rw [List.flatMap_nil, Config.scan_segment hfirst (by simp), Config.scan_nil, gather,
      if_neg hfirst.ne_dot, gather]
    obtain ⟨step, rest, hsteps⟩ := List.exists_cons_of_ne_nil (List.concat_ne_nil _ steps)
    exact ⟨step, rest, congrArg Except.ok hsteps⟩
  | cons second segments ih =>
    obtain ⟨hsecond, hrest⟩ := List.forall_mem_cons.mp hsegments
    rw [List.flatMap_cons, List.cons_append, Config.scan_segment hfirst (by simp),
      Config.scan_dot, gather, if_neg hfirst.ne_dot, gather, if_pos rfl,
      if_neg (by simp)]
    exact ih hsecond hrest _ _ _

/-- The name of a root or the key of an index, as it is written. -/
def written? : Step → Option String
  | .root name _ | .attribute name _ => some name
  | .index (.text key) _ => some key
  | .index _ _ => none

theorem written?_stepOf (isFirst : Bool) (token : Token) :
    written? (stepOf isFirst token) = some (String.ofList (Utf8.decode token.bytes)) := by
  cases isFirst <;> rfl

theorem range_stepOf (isFirst : Bool) (token : Token) :
    (stepOf isFirst token).range = token.range := by
  cases isFirst <;> rfl

/-- A range of a source covers what a step is written as. -/
def StepCovered (source : Bytes) (start : Config.Pos) (step : Step) : Prop :=
  ∃ text, written? step = some text ∧ Covers source start step.range (encode text.toList)

theorem lt_of_isName {name : List Char} (h : IsName name) : ∀ b ∈ encode name, b < 0x80 := by
  refine Utf8.lt_of_mem_encode fun c hc => ?_
  have hplain := h.isPlain c hc
  exact Nat.lt_of_le_of_lt hplain.2.1 (by decide)

/-- **A name leads along a path, and each step of it is covered by its range.** -/
theorem traversalOf_covers {name : String} (hname : IsName name.toList) (range : Range) :
    ∃ t, traversalOf name range = .ok t ∧
      ∀ step ∈ t.steps, StepCovered (encode name.toList) range.start step := by
  obtain ⟨first, segments, hfirst, hsegments, hencode⟩ := encode_name hname
  obtain ⟨step, rest, hgather⟩ :=
    gather_segments hfirst hsegments range.file range.start [] none
  rw [← hencode] at hgather
  refine ⟨⟨step, rest⟩, by rw [traversalOf_eq, hgather], ?_⟩
  refine forall_mem_gather (by simp) (fun token htoken isFirst => ?_) hgather
  have hcovers := Config.scan_covers Config.splitStep_isPrefix range.file range.start
    (encode name.toList) token htoken
  refine ⟨_, written?_stepOf isFirst token, ?_⟩
  -- a part of a name is ASCII, so nothing is lost in decoding it
  have hascii : ∀ b ∈ token.bytes, b < 0x80 := by
    intro b hb
    obtain ⟨before, after, hpart, -⟩ := hcovers.1
    refine lt_of_isName hname b ?_
    rw [hpart]
    exact List.mem_append_left _ (List.mem_append_right _ hb)
  rw [range_stepOf, String.toList_ofList, Utf8.encode_decode_ascii hascii]
  exact hcovers

/-! ### Names in a text -/

variable {text : String} {start : Config.Pos} {offset : Nat}

/-- What stands in a text where something may start stands in its bytes where the range of
that place starts. -/
theorem standsAt_rangeOf (hstart : Startable text.toList offset) {part : List Char}
    (hpart : Template.StandsAt text.toList offset part) (file : String) :
    StandsAt (encode text.toList) start
      (rangeOf ((toTemplatePos file start).locate text.toList offset) (encode text.toList) start)
      (encode part) := by
  have hplace := place?_of_startable hstart file start
  obtain ⟨range, hrange, hplace⟩ := Option.map_eq_some_iff.mp hplace
  obtain ⟨before, after, hcs, rfl⟩ := hpart
  have htake : text.toList.take before.length = before := by
    rw [hcs, List.append_assoc, List.take_left]
  rw [htake] at hplace
  refine ⟨encode before, encode after, ?_, ?_⟩
  · rw [hcs, Utf8.encode_append, Utf8.encode_append]
  · rw [rangeOf, hrange, Option.getD_some, hplace]
    rfl

theorem rangeOf_start_ne_zero (hstart : Startable text.toList offset) (hline : 1 ≤ start.line)
    (file : String) :
    (rangeOf ((toTemplatePos file start).locate text.toList offset) (encode text.toList)
      start).start ≠ .zero := by
  have hplace := place?_of_startable hstart file start
  obtain ⟨range, hrange, hplace⟩ := Option.map_eq_some_iff.mp hplace
  rw [rangeOf, hrange, Option.getD_some, hplace]
  intro hzero
  have hlines : start.line + (text.toList.take offset).count '\n' = 0 :=
    congrArg Config.Pos.line hzero
  omega

theorem nameRange_of_ne {o : Origin} {p : Template.Pos} (h : (o.rangeAt p).start ≠ .zero)
    (name : String) :
    o.nameRange p name =
      { o.rangeAt p with stop := (o.rangeAt p).start.advance (encode name.toList) } := by
  rw [Origin.nameRange]
  exact if_neg h

/-- **The range of a name covers it.** -/
theorem covers_nameRange (hstart : Startable text.toList offset) {name : String}
    (hname : Template.StandsAt text.toList offset name.toList) (hline : 1 ≤ start.line)
    (file : String) (interpret : String → Range → Lookup) :
    Covers (encode text.toList) start
      (Origin.nameRange ⟨encode text.toList, start, interpret⟩
        ((toTemplatePos file start).locate text.toList offset) name)
      (encode name.toList) := by
  have hne : (Origin.rangeAt ⟨encode text.toList, start, interpret⟩
      ((toTemplatePos file start).locate text.toList offset)).start ≠ .zero :=
    rangeOf_start_ne_zero hstart hline file
  rw [nameRange_of_ne hne]
  exact ⟨standsAt_rangeOf hstart hname file, rfl⟩

/-! ### Names of an expression -/

/-- A name in the tree that is read stands in the text where its node starts. -/
theorem standsAt_of_parse {n m : Node Origin} {p : Template.Pos}
    (h : Template.parse text p = .ok n) (hm : m ∈ n.subtrees) {name : String}
    (hname : m.name? = some name) :
    ∃ offset, m.pos = p.locate text.toList offset ∧ Startable text.toList offset ∧
      IsName name.toList ∧ Template.StandsAt text.toList offset name.toList := by
  by_cases hempty : text = ""
  · -- an empty text has no names
    subst hempty
    rw [Template.parse_empty] at h
    cases h
    obtain rfl := List.mem_singleton.mp hm
    cases hname
  · have hsites : Template.Sited (p.locate text.toList) text.toList
        (Template.parse text p : Except Template.ParseFailure (Node Origin)) :=
      Template.parse_sits hempty p
    rw [h] at hsites
    obtain ⟨offset, hpos, hstart, hnames⟩ := hsites m hm
    obtain ⟨hisName, hstands⟩ := hnames name hname
    exact ⟨offset, hpos, hstart, hisName, hstands⟩

/-- Adoption leaves names alone. -/
theorem name?_adopt (origin : Origin) (n : Node Origin) :
    (n.adopt origin).name? = n.name? := by
  cases n <;> simp [Node.name?]

/-- So it is when an expression has adopted the tree. -/
theorem standsAt_of_mem_subtrees {n m : Node Origin} {p : Template.Pos} {origin : Origin}
    (h : Template.parse text p = .ok n) (hm : m ∈ (n.adopt origin).subtrees) {name : String}
    (hname : m.name? = some name) :
    ∃ offset, m.pos = p.locate text.toList offset ∧ Startable text.toList offset ∧
      IsName name.toList ∧ Template.StandsAt text.toList offset name.toList := by
  rw [Node.subtrees_adopt] at hm
  obtain ⟨k, hk, rfl⟩ := List.mem_map.mp hm
  rw [name?_adopt] at hname
  rw [Node.pos_adopt]
  exact standsAt_of_parse h hk hname

/-- **Names are reported where they are written.**  Every name of an expression belongs to
it.  The range of a variable name covers the name in the source, and the ranges of the steps
of its path cover their names and keys; where a call starts, the name of its function
stands. -/
theorem parse_names {file : String} {interpret : String → Range → Lookup} {e : Expression}
    (hline : 1 ≤ start.line) (h : parse text file start interpret = .ok (.ok e)) :
    (∀ o p name, .access o p name ∈ e.root.subtrees → ∃ origin, o = some origin ∧
      Covers (encode text.toList) start (origin.nameRange p name) (encode name.toList) ∧
      ∃ t, traversalOf name (origin.nameRange p name) = .ok t ∧
        ∀ step ∈ t.steps, StepCovered (encode text.toList) start step) ∧
    ∀ o p function arguments, .call o p function arguments ∈ e.root.subtrees →
      o.isSome ∧ StandsAt (encode text.toList) start
        (e.nodeRange (.call o p function arguments)) (encode function.toList) := by
  obtain ⟨n, hn, hraw, rfl⟩ := parse_eq_ok h
  constructor
  · intro o p name hm
    obtain ⟨offset, hpos, hstart, hname, hstands⟩ := standsAt_of_mem_subtrees hn hm rfl
    obtain rfl : p = (toTemplatePos file start).locate text.toList offset := hpos
    have hcovers := covers_nameRange hstart hstands hline file interpret
    obtain ⟨t, ht, hsteps⟩ := traversalOf_covers hname
      (Origin.nameRange ⟨encode text.toList, start, interpret⟩
        ((toTemplatePos file start).locate text.toList offset) name)
    refine ⟨_, (owner_of_mem_subtrees_adopt hraw hm).1 o _ name rfl, hcovers, t, ht, ?_⟩
    intro step hstep
    obtain ⟨written, hwritten, hpart⟩ := hsteps step hstep
    exact ⟨written, hwritten, hcovers.trans hpart⟩
  · intro o p function arguments hm
    obtain ⟨offset, hpos, hstart, -, hstands⟩ := standsAt_of_mem_subtrees hn hm rfl
    obtain rfl : p = (toTemplatePos file start).locate text.toList offset := hpos
    rw [(owner_of_mem_subtrees_adopt hraw hm).2 o _ function arguments rfl]
    exact ⟨rfl, standsAt_rangeOf hstart hstands file⟩

/-- The name on the third line, which is two steps, and the call on the second. -/
theorem parse_names_threeLines :
    ∃ e : Expression,
      (1 : Int) ≤ 3 ∧ parse threeLines "main.tf" ⟨3, 7, 40⟩ interpretName = .ok (.ok e) ∧
      Covers (encode threeLines.toList) ⟨3, 7, 40⟩
        (e.origin.nameRange ⟨"main.tf", 5, 3⟩ "a.b") (encode "a.b".toList) ∧
      (∃ t, traversalOf "a.b" (e.origin.nameRange ⟨"main.tf", 5, 3⟩ "a.b") = .ok t ∧
        ∀ step ∈ t.steps, StepCovered (encode threeLines.toList) ⟨3, 7, 40⟩ step) ∧
      StandsAt (encode threeLines.toList) ⟨3, 7, 40⟩
        (e.origin.rangeAt ⟨"main.tf", 4, 3⟩) (encode "f".toList) := by
  have hline : (1 : Int) ≤ 3 := by decide
  have hparse : ∃ e, parse threeLines "main.tf" ⟨3, 7, 40⟩ interpretName = .ok (.ok e) ∧
      .access (some e.origin) ⟨"main.tf", 5, 3⟩ "a.b" ∈ e.root.subtrees ∧
      ∃ arguments, .call (some e.origin) ⟨"main.tf", 4, 3⟩ "f" arguments ∈ e.root.subtrees := by
    refine ⟨_, by rw [parse, parse_threeLines], ?_⟩
    simp [ofNode, Node.subtrees, Node.subtreesAll]
  obtain ⟨e, hparse, haccess, arguments, hcall⟩ := hparse
  have hnames := parse_names hline hparse
  obtain ⟨origin, horigin, hcovers, hsteps⟩ := hnames.1 _ _ _ haccess
  cases horigin
  exact ⟨e, hline, hparse, hcovers, hsteps, (hnames.2 _ _ _ _ hcall).2⟩

end Interpolation.Expression
