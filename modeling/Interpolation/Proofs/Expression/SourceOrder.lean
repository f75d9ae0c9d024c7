/-
The names of an expression are reported in source order.

* `traversalOf_range` — the path of a name is written where the name is;
* `Laid.accesses_along` — in a tree that is laid out, the accesses lie one after the other;
* `parse_inSourceOrder` — trees are in source order, and so are the paths that an expression
  depends on, one for each access, each with the range of the name.

Design notes: the range of a path ends where its last step does, and that is found by
advancing over the name segment by segment.  In general this is not where advancing over the
whole name at once leads, because what begins a segment might join the cluster before it.
The characters of names are clusters by themselves, so here the two agree
(`advance_append`).
-/
import Interpolation.Proofs.Config.Lines
import Interpolation.Proofs.Expression.Moving
import Interpolation.Proofs.Expression.Segments
import Interpolation.Proofs.Expression.Warnings
import Interpolation.Proofs.Template.SourceOrder

namespace Interpolation

namespace Expression

open Config (Range Step Traversal scan splitStep)
open Template (Along IsName IsPlain Laid Node Startable dotted)
open Utf8 (encode)

/-! ### The ranges of names -/

theorem role_of_isPlain {c : Char} (h : IsPlain c) : Grapheme.role c = .other := by
  obtain ⟨hlo, hhi, -⟩ := h
  exact Grapheme.role_eq_other (by omega) (by omega)

/-- Advancing over plain characters can be done in parts. -/
theorem advance_append {a b : List Char} (ha : ∀ c ∈ a, IsPlain c) (hb : ∀ c ∈ b, IsPlain c)
    (p : Config.Pos) :
    (p.advance (encode a)).advance (encode b) = p.advance (encode (a ++ b)) := by
  have hab : ∀ c ∈ a ++ b, IsPlain c := List.forall_mem_append.mpr ⟨ha, hb⟩
  rw [Config.Pos.advance_other fun c hc => role_of_isPlain (ha c hc),
    Config.Pos.advance_other fun c hc => role_of_isPlain (hb c hc),
    Config.Pos.advance_other fun c hc => role_of_isPlain (hab c hc),
    Utf8.encode_append, List.length_append, List.length_append]
  simp only [Config.Pos.mk.injEq, Nat.cast_add, true_and]
  exact ⟨Int.add_assoc _ _ _, Int.add_assoc _ _ _⟩

/-- A segment of a name that can be written. -/
structure IsPart (segment : List Char) : Prop where
  ne_nil : segment ≠ []
  dot_notMem : '.' ∉ segment
  isPlain : ∀ c ∈ segment, IsPlain c

theorem isPlain_dotted {segments : List (List Char)} (h : ∀ s ∈ segments, IsPart s) :
    ∀ c ∈ dotted segments, IsPlain c := by
  intro c hc
  obtain ⟨s, hs, hmem⟩ := List.mem_flatMap.mp hc
  rcases List.mem_cons.mp hmem with rfl | hmem
  · decide
  · exact (h s hs).isPlain c hmem

/-- A name is made of parts with dots between them. -/
theorem exists_parts {name : List Char} (h : IsName name) :
    ∃ first segments, IsPart first ∧ (∀ s ∈ segments, IsPart s) ∧
      name = first ++ dotted segments := by
  have hplain := h.isPlain
  obtain ⟨c, first, segments, hc, hfirst, hsegments, rfl⟩ := h
  refine ⟨c :: first, segments, ⟨List.cons_ne_nil _ _, fun hdot => ?_, fun d hd => ?_⟩,
    fun s hs => ?_, rfl⟩
  · rcases List.mem_cons.mp hdot with rfl | hdot
    · cases hc
    · exact dot_notMem_of_continuesName hfirst hdot
  · exact hplain d (List.mem_append_left _ hd)
  · have hs' : ∀ c ∈ s, IsPlain c := (hsegments s hs).isPlain
    rcases hsegments s hs with rfl | ⟨hne, hcontinues⟩
    · exact ⟨by decide, by decide, hs'⟩
    · exact ⟨hne, dot_notMem_of_continuesName hcontinues, hs'⟩

theorem range_segmentStep (isFirst : Bool) (segment : List Char) (range : Range) :
    (segmentStep isFirst segment range).range = range := by
  cases isFirst <;> rfl

/-- A step in front of a path does not change where the path ends. -/
theorem range_cons (step : Step) (t : Traversal) :
    (⟨step, t.steps⟩ : Traversal).range =
      ⟨step.range.file, step.range.start, t.range.stop⟩ := by
  simp [Traversal.range, Traversal.steps, List.getLast?_cons]

/-- The steps of parts are gathered, and they extend as far as the parts do. -/
theorem gather_parts {first : List Char} {segments : List (List Char)} (hfirst : IsPart first)
    (hsegments : ∀ s ∈ segments, IsPart s) (file : String) (pos : Config.Pos)
    (steps : List Step) (separator : Option Range) :
    ∃ t : Traversal, gather steps separator
        (scan splitStep file pos (encode (first ++ dotted segments))).tokens =
          .ok (steps ++ t.steps) ∧
      t.range = ⟨file, pos, pos.advance (encode (first ++ dotted segments))⟩ := by
  induction segments generalizing first pos steps separator with
  | nil =>
    have hgather : gather steps separator (scan splitStep file pos (encode first ++ [])).tokens =
        gather _ none (scan splitStep file (pos.advance (encode first)) []).tokens :=
      gather_segment hfirst.ne_nil hfirst.dot_notMem (by simp)
    rw [List.append_nil, Config.scan_nil, gather] at hgather
    rw [show first ++ dotted [] = first from List.append_nil first]
    exact ⟨⟨_, []⟩, hgather, range_segmentStep _ _ _⟩
  | cons second segments ih =>
    obtain ⟨hsecond, hrest⟩ := List.forall_mem_cons.mp hsegments
    obtain ⟨t, ht, hrange⟩ := ih hsecond hrest ((pos.advance (encode first)).advance [0x2E])
      (steps ++ [segmentStep steps.isEmpty first ⟨file, pos, pos.advance (encode first)⟩])
      (some ⟨file, pos.advance (encode first), (pos.advance (encode first)).advance [0x2E]⟩)
    have hname : first ++ dotted (second :: segments) =
        first ++ ['.'] ++ (second ++ dotted segments) := by
      simp [dotted]
    have hbytes : encode (first ++ ['.'] ++ (second ++ dotted segments)) =
        encode first ++ 0x2E :: encode (second ++ dotted segments) := by
      rw [Utf8.encode_append, Utf8.encode_append, List.append_assoc]
      rfl
    have hdot : ∀ c ∈ ['.'], IsPlain c := List.forall_mem_singleton.mpr (by decide)
    have hfirstDot : ∀ c ∈ first ++ ['.'], IsPlain c :=
      List.forall_mem_append.mpr ⟨hfirst.isPlain, hdot⟩
    have hlater : ∀ c ∈ second ++ dotted segments, IsPlain c :=
      List.forall_mem_append.mpr ⟨hsecond.isPlain, isPlain_dotted hrest⟩
    rw [hname]
    refine ⟨⟨segmentStep steps.isEmpty first ⟨file, pos, pos.advance (encode first)⟩, t.steps⟩,
      ?_, ?_⟩
    · rw [hbytes, gather_segment hfirst.ne_nil hfirst.dot_notMem (by simp), gather_dot (by simp),
        ht, List.append_assoc]
      rfl
    · have hnext : (pos.advance (encode first)).advance [0x2E] =
          pos.advance (encode (first ++ ['.'])) := advance_append hfirst.isPlain hdot pos
      rw [range_cons, hrange, range_segmentStep, hnext, advance_append hfirstDot hlater]

/-- **A name that can be written leads along a path, which is written where the name is.** -/
theorem traversalOf_range {name : String} (hname : IsName name.toList) (range : Range) :
    ∃ t, traversalOf name range = .ok t ∧
      t.range = { range with stop := range.start.advance (encode name.toList) } := by
  obtain ⟨first, segments, hfirst, hsegments, hparts⟩ := exists_parts hname
  obtain ⟨t, ht, hrange⟩ := gather_parts hfirst hsegments range.file range.start [] none
  rw [← hparts] at ht hrange
  refine ⟨t, ?_, hrange⟩
  rw [traversalOf_eq, ht]
  rfl

/-! ### The accesses of a tree -/

/-- A tree is laid out the same when its names have an owner. -/
theorem laid_adopt {locate : Nat → Template.Pos} {start stop : Nat} {n : Node Origin}
    (h : Laid locate start stop n) (o : Origin) : Laid locate start stop (n.adopt o) := by
  induction n using Node.kids_induction generalizing start stop with
  | node n ih =>
    refine .node (by rw [Node.pos_adopt, h.pos_eq]) ?_
    rw [Node.kids_adopt]
    exact h.kids.map fun k hk _ _ hlaid => ih k hk hlaid

/-- An access starts at an offset. -/
def StartsAt (locate : Nat → Template.Pos) (start _stop : Nat)
    (access : Origin × Template.Pos × String) : Prop :=
  access.2.1 = locate start

/-- **The accesses of a tree that is laid out lie one after the other.** -/
theorem accesses_along {locate : Nat → Template.Pos} {start stop : Nat} {n : Node Origin}
    (h : Laid locate start stop n) (hlt : start < stop) :
    Along (StartsAt locate) start stop (accesses n) := by
  induction n using Node.kids_induction generalizing start stop with
  | node n ih =>
    have hkids : Along (StartsAt locate) start stop (n.kids.flatMap accesses) :=
      h.kids.flatMap fun k hk _ _ hlt hlaid => ih k hk hlaid hlt
    rw [Evaluation.accesses_eq]
    split
    · exact .cons le_rfl hlt h.pos_eq (.nil le_rfl)
    · exact hkids

/-- The accesses of an expression are in the order of their positions. -/
theorem accesses_pairwise {text : String} {p : Template.Pos} {n : Node Origin}
    (h : Template.parse text p = .ok n) (o : Origin) :
    (accesses (n.adopt o)).Pairwise fun a b => a.2.1.Before b.2.1 := by
  have hlaid := laid_adopt (Template.parse_laid h) o
  -- one place more than there are characters, so that an empty text has one
  have hlonger : Laid (p.locate text.toList) 0 (text.toList.length + 1) (n.adopt o) :=
    .node hlaid.pos_eq (hlaid.kids.mono_right (Nat.le_succ _))
  refine (accesses_along hlonger (Nat.succ_pos _)).pairwise fun ha hb hlt hhi => ?_
  rw [StartsAt] at ha hb
  rw [ha, hb]
  exact p.locate_before hlt (Nat.le_of_lt_succ hhi)

/-! ### The paths of an expression -/

variable {text : String} {start : Config.Pos}

theorem lt_length_of_startable {cs : List Char} {offset : Nat} (h : Startable cs offset) :
    offset < cs.length := by
  obtain ⟨before, c, after, rfl, rfl, -⟩ := h
  simp

/-- What is further on in a text is more bytes behind its beginning. -/
theorem byte_placeAfter_lt {cs : List Char} {i j : Nat} (hij : i < j) (hj : j ≤ cs.length) :
    (placeAfter start (cs.take i)).byte < (placeAfter start (cs.take j)).byte := by
  obtain ⟨between, hne, hbetween⟩ := Template.exists_take_eq hij hj
  have hpos := encode_pos hne
  show start.byte + (encode (cs.take i)).length < start.byte + (encode (cs.take j)).length
  rw [hbetween, Utf8.encode_append, List.length_append]
  omega

/-- Places in a text come in the order of their positions. -/
theorem byte_rangeOf_lt {i j : Nat} (hi : Startable text.toList i) (hj : Startable text.toList j)
    {file : String} (h : ((toTemplatePos file start).locate text.toList i).Before
      ((toTemplatePos file start).locate text.toList j)) :
    (rangeOf ((toTemplatePos file start).locate text.toList i) (encode text.toList)
        start).start.byte <
      (rangeOf ((toTemplatePos file start).locate text.toList j) (encode text.toList)
        start).start.byte := by
  have hlt : i < j := by
    rcases Nat.lt_trichotomy i j with hlt | rfl | hlt
    · exact hlt
    · exact absurd h (Template.Pos.Before.irrefl _)
    · exact absurd h (Template.Pos.locate_before _ hlt (lt_length_of_startable hi).le).asymm
  have hplace : ∀ {offset}, Startable text.toList offset →
      (rangeOf ((toTemplatePos file start).locate text.toList offset) (encode text.toList)
        start).start = placeAfter start (text.toList.take offset) := by
    intro offset hoffset
    obtain ⟨range, hrange, hplace⟩ :=
      Option.map_eq_some_iff.mp (place?_of_startable hoffset file start)
    rw [rangeOf, hrange, Option.getD_some, hplace]
  rw [hplace hi, hplace hj]
  exact byte_placeAfter_lt hlt (lt_length_of_startable hj).le

/-- The path of an access is written where its name is. -/
def IsPathOf (access : Origin × Template.Pos × String) (t : Traversal) : Prop :=
  traversalOf access.2.2 (access.1.nameRange access.2.1 access.2.2) = .ok t ∧
    t.range = access.1.nameRange access.2.1 access.2.2

theorem exists_isPathOf {file : String} (hline : 1 ≤ start.line) {n : Node Origin}
    (h : Template.parse text (toTemplatePos file start) = .ok n)
    {interpret : String → Range → Lookup} {o : Origin} {p : Template.Pos} {name : String}
    (hmem : (o, p, name) ∈ accesses (n.adopt ⟨encode text.toList, start, interpret⟩)) :
    ∃ t, IsPathOf (o, p, name) t := by
  obtain rfl := owner_of_mem_accesses (Template.parse_raw h) hmem
  obtain ⟨offset, hpos, hstart, hname, -⟩ :=
    standsAt_of_mem_subtrees h (mem_accesses.mp hmem) rfl
  obtain rfl : p = (toTemplatePos file start).locate text.toList offset := hpos
  obtain ⟨t, ht, hrange⟩ := traversalOf_range hname
    (Origin.nameRange ⟨encode text.toList, start, interpret⟩
      ((toTemplatePos file start).locate text.toList offset) name)
  refine ⟨t, ht, hrange.trans ?_⟩
  have hne : (Origin.rangeAt ⟨encode text.toList, start, interpret⟩
      ((toTemplatePos file start).locate text.toList offset)).start ≠ .zero :=
    rangeOf_start_ne_zero hstart hline file
  rw [nameRange_of_ne hne]

/-- What gives one item for each item is related to it item by item. -/
theorem forall₂_flatMap {α β : Type} {R : α → β → Prop} {f : α → List β} {as : List α}
    (h : ∀ a ∈ as, ∃ b, f a = [b] ∧ R a b) : List.Forall₂ R as (as.flatMap f) := by
  induction as with
  | nil => exact .nil
  | cons a rest ih =>
    obtain ⟨⟨b, hb, hR⟩, hrest⟩ := List.forall_mem_cons.mp h
    rw [List.flatMap_cons, hb]
    exact .cons hR (ih hrest)

theorem variables_interpretName {name : String} {range : Range} {t : Traversal}
    (h : traversalOf name range = .ok t) : (interpretName name range).variables = [t] := by
  rw [interpretName, Reference.ofName, h]
  rfl

theorem start_bytes_eq {as : List (Origin × Template.Pos × String)} {ts : List Traversal}
    (h : List.Forall₂ IsPathOf as ts) :
    ts.map (fun t => t.range.start.byte) = as.map fun a => (a.1.rangeAt a.2.1).start.byte := by
  induction h with
  | nil => rfl
  | cons hpath _ ih => rw [List.map_cons, List.map_cons, ih, hpath.2, Origin.nameRange_start]

/-- **Trees are in source order, and so are the paths of an expression.**  In every tree that
is read the kids of a node have increasing positions, and none comes before the node.  Each
access of an expression has one path, whose range is that of its name, and the ranges of the
paths start at increasing bytes. -/
theorem parse_inSourceOrder :
    (∀ (Owner : Type) (text : String) (p : Template.Pos) (n : Node Owner),
      Template.parse text p = .ok n → n.InSourceOrder) ∧
    ∀ (text file : String) (start : Config.Pos) (e : Expression), 1 ≤ start.line →
      parse text file start interpretName = .ok (.ok e) →
        List.Forall₂ IsPathOf (accesses e.root) e.variables ∧
          (e.variables.map fun t => t.range.start.byte).Pairwise (· < ·) := by
  refine ⟨fun Owner text p n h => (Template.parse_laid h).inSourceOrder le_rfl, ?_⟩
  intro text file start e hline h
  obtain ⟨n, hn, hraw, rfl⟩ := parse_eq_ok h
  have hpaths : List.Forall₂ IsPathOf
      (accesses (n.adopt ⟨encode text.toList, start, interpretName⟩))
      (ofNode n ⟨encode text.toList, start, interpretName⟩).variables := by
    refine forall₂_flatMap fun access hmem => ?_
    obtain ⟨t, ht⟩ := exists_isPathOf hline hn hmem
    exact ⟨t, variables_interpretName ht.1, ht⟩
  refine ⟨hpaths, ?_⟩
  rw [start_bytes_eq hpaths, List.pairwise_map]
  refine (accesses_pairwise hn _).imp_of_mem fun {a b} ha hb hbefore => ?_
  obtain ⟨o, p, name⟩ := a
  obtain ⟨o', p', name'⟩ := b
  obtain rfl := owner_of_mem_accesses hraw ha
  obtain rfl := owner_of_mem_accesses hraw hb
  obtain ⟨i, rfl, hi, -⟩ := standsAt_of_mem_subtrees hn (mem_accesses.mp ha) rfl
  obtain ⟨j, rfl, hj, -⟩ := standsAt_of_mem_subtrees hn (mem_accesses.mp hb) rfl
  exact byte_rangeOf_lt hi hj hbefore

/-- A call on two lines with a name in a string literal, and an interpolation behind it. -/
private def twoLines : String :=
  "$\x7bf(\"$\x7ba.b\x7d\",\n c)\x7d$\x7bd\x7d"

private def twoLinesTree : Node Origin :=
  .output ⟨"main.tf", 3, 7⟩ [.call none ⟨"main.tf", 3, 9⟩ "f"
    [.output ⟨"main.tf", 3, 12⟩ [.access none ⟨"main.tf", 3, 14⟩ "a.b"],
      .access none ⟨"main.tf", 4, 2⟩ "c"], .access none ⟨"main.tf", 4, 7⟩ "d"]

theorem parse_inSourceOrder_twoLines :
    twoLinesTree.InSourceOrder ∧ ∃ e : Expression, (1 : Int) ≤ 3 ∧
      parse twoLines "main.tf" ⟨3, 7, 40⟩ interpretName = .ok (.ok e) ∧
      List.Forall₂ IsPathOf (accesses e.root) e.variables ∧
        (e.variables.map fun t => t.range.start.byte).Pairwise (· < ·) := by
  have htree : Template.parse twoLines (toTemplatePos "main.tf" ⟨3, 7, 40⟩) =
      .ok twoLinesTree := by with_unfolding_all rfl
  have hline : (1 : Int) ≤ 3 := by decide
  have hparse : ∃ e, parse twoLines "main.tf" ⟨3, 7, 40⟩ interpretName = .ok (.ok e) :=
    ⟨_, by rw [parse, htree]⟩
  obtain ⟨e, he⟩ := hparse
  exact ⟨parse_inSourceOrder.1 _ _ _ _ htree, e, hline, he,
    parse_inSourceOrder.2 _ _ _ _ hline he⟩

end Expression

end Interpolation
