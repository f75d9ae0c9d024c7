/-
Moving a template moves its ranges and changes nothing else.

* `rangeOf_move`, `nameRange_move` — what is found in a source is found elsewhere when the
  source begins elsewhere;
* `interpretName_move` — a name refers to the same;
* `parse_moves` — a template that begins elsewhere is read as the same expression, or is
  wrong for the same reason, and all that changes are ranges;
* `value_explained` — what stays as it is are the explanations of functions.

Design notes: the column at which a fragment begins is added when positions are found in the
template and taken off again when they are looked up in the source, in both cases on the
first line only.  A range that is found is not on a line before the fragment, so it is no
placeholder, and neither is the range of a name that is read.
-/
import Interpolation.Proofs.Evaluation.Moving
import Interpolation.Proofs.Expression.Naming
import Interpolation.Proofs.Expression.Value
import Mathlib.Data.List.Find

namespace Interpolation

namespace Config.Move

/-- Where a position in a template of the fragment is moved to. -/
def templatePos (m : Move) (p : Template.Pos) : Template.Pos where
  file := p.file
  line := p.line + (m.new.line - m.old.line)
  column := if p.line = m.old.line then p.column + (m.new.column - m.old.column) else p.column

variable (m : Move)

theorem pass_templatePos {p : Template.Pos} (h : m.old.line ≤ p.line) (c : Char) :
    (m.templatePos p).pass c = m.templatePos (p.pass c) := by
  unfold Template.Pos.pass templatePos
  split
  · have hlater : ¬ p.line + 1 = m.old.line := by omega
    simp only [if_neg hlater, Template.Pos.mk.injEq, true_and, and_true]
    omega
  · simp only [Template.Pos.mk.injEq, true_and]
    split <;> omega

theorem after_templatePos {p : Template.Pos} (h : m.old.line ≤ p.line) (cs : List Char) :
    (m.templatePos p).after cs = m.templatePos (p.after cs) := by
  induction cs generalizing p with
  | nil => rfl
  | cons c cs ih =>
    have hline : p.line ≤ (p.pass c).line := by
      have := p.after_line [c]
      simp only [Template.Pos.after_cons, Template.Pos.after_nil] at this
      omega
    rw [Template.Pos.after_cons, Template.Pos.after_cons, m.pass_templatePos h,
      ih (Int.le_trans h hline)]

/-- **The positions of a template move with it.** -/
theorem locate_templatePos (file : String) (cs : List Char) (offset : Nat) :
    (Expression.toTemplatePos file m.new).locate cs offset =
      m.templatePos ((Expression.toTemplatePos file m.old).locate cs offset) := by
  have hstart : Expression.toTemplatePos file m.new =
      m.templatePos (Expression.toTemplatePos file m.old) := by
    simp only [Expression.toTemplatePos, templatePos, if_pos, Template.Pos.mk.injEq, true_and]
    omega
  rw [Template.Pos.locate, Template.Pos.locate, hstart]
  exact m.after_templatePos (Int.le_refl _) _

end Config.Move

namespace Expression

open Config (Context Diagnostic Diagnostics Move Range Result Token Traversal lines)
open Evaluation (CallExplainsIn ExplainedIn Moves eval_failsWith eval_moves failsIn_explained_iff
  isUsual_adopt)
open Template (Node)
open Utf8 (encode)

variable {m : Move}

/-! ### Ranges in a source -/

theorem line_le_of_place? {p : Template.Pos} {source : Bytes} {start : Config.Pos}
    {range : Range} (h : place? p source start = some range) :
    start.line ≤ range.start.line := by
  rw [place?_eq_find?] at h
  obtain ⟨line, hline, h⟩ := Option.bind_eq_some_iff.mp h
  rw [(placeOn_eq_some h).2.2]
  exact Config.line_le_of_mem_scan line (List.mem_of_find?_eq_some hline)

/-- A place on a line is the same number of bytes into it wherever the line is. -/
theorem placeOn_move {line : Token} (h : 1 ≤ line.range.start.line) (file : String)
    (offset : Int) :
    placeOn file (line.mapRange m.range) offset = (placeOn file line offset).map m.range := by
  have hmoved : (line.mapRange m.range).range =
      ⟨line.range.file, m.pos line.range.start, m.pos line.range.stop⟩ := m.range_of_line h
  unfold placeOn
  rw [Token.mapRange_bytes]
  split
  · have hwithin : 1 ≤ (rangeWithin file line offset.toNat).start.line := h
    rw [Option.map_some, m.range_of_line hwithin]
    simp only [rangeWithin, hmoved, Token.mapRange_bytes, Move.pos, Option.some.injEq,
      Range.mk.injEq, Config.Pos.mk.injEq, true_and, and_true]
    split <;> omega
  · rfl

/-- **A position is placed elsewhere when the source begins elsewhere.** -/
theorem place?_move (hold : 1 ≤ m.old.line) (p : Template.Pos) (source : Bytes) :
    place? (m.templatePos p) source m.new = (place? p source m.old).map m.range := by
  have hlines : ∀ line ∈ lines p.file m.old source, 1 ≤ line.range.start.line :=
    fun line hline => Int.le_trans hold (Config.line_le_of_mem_scan line hline)
  have hfind : (lines p.file m.new source).find? (fun line =>
        line.range.start.line == (m.templatePos p).line) =
      ((lines p.file m.old source).find? fun line => line.range.start.line == p.line).map
        (Token.mapRange m.range) := by
    rw [Config.lines_move hold, List.find?_map]
    refine congrArg _ (List.find?_congr fun line hline => ?_)
    have hmoved : (line.mapRange m.range).range.start = m.pos line.range.start := by
      rw [Token.mapRange, m.range_of_line (hlines line hline)]
    simp only [Function.comp_apply, hmoved, Move.pos_line, Move.templatePos, beq_eq_beq]
    omega
  rw [place?_eq_find?, place?_eq_find?, show (m.templatePos p).file = p.file from rfl, hfind]
  cases hline : (lines p.file m.old source).find? fun line => line.range.start.line == p.line with
  | none => rfl
  | some line =>
    have hat : line.range.start.line = p.line := by simpa using List.find?_some hline
    have hpos := hlines line (List.mem_of_find?_eq_some hline)
    have hcolumn : (m.templatePos p).column - (line.mapRange m.range).range.start.column =
        p.column - line.range.start.column := by
      rw [Token.mapRange, m.range_of_line hpos]
      simp only [Move.templatePos, Move.pos, hat]
      split <;> omega
    rw [Option.map_some, Option.bind_some, Option.bind_some, hcolumn, placeOn_move hpos]

theorem rangeOf_move (hold : 1 ≤ m.old.line) (p : Template.Pos) (source : Bytes) :
    rangeOf (m.templatePos p) source m.new = m.range (rangeOf p source m.old) := by
  rw [rangeOf, rangeOf, place?_move hold]
  cases place? p source m.old with
  | none => exact (m.range_placeholder p.file).symm
  | some range => rfl

/-! ### Names -/

/-- **The range of a name moves with the source.** -/
theorem nameRange_move (hold : 1 ≤ m.old.line) (hnew : 1 ≤ m.new.line) (source : Bytes)
    (interpret : String → Range → Lookup) (p : Template.Pos) (name : String) :
    Origin.nameRange ⟨source, m.new, interpret⟩ (m.templatePos p) name =
      m.range (Origin.nameRange ⟨source, m.old, interpret⟩ p name) := by
  have hmoved : Origin.rangeAt ⟨source, m.new, interpret⟩ (m.templatePos p) =
      m.range (Origin.rangeAt ⟨source, m.old, interpret⟩ p) := rangeOf_move hold p source
  cases hplace : place? p source m.old with
  | none =>
    have hlost : Origin.rangeAt ⟨source, m.old, interpret⟩ p = .placeholder p.file := by
      rw [Origin.rangeAt, rangeOf, hplace, Option.getD_none]
    rw [Origin.nameRange, Origin.nameRange, hmoved, hlost, m.range_placeholder]
    exact (m.range_placeholder p.file).symm
  | some range =>
    have hfound : Origin.rangeAt ⟨source, m.old, interpret⟩ p = range := by
      rw [Origin.rangeAt, rangeOf, hplace, Option.getD_some]
    have hline := line_le_of_place? hplace
    have hpos : 1 ≤ range.start.line := Int.le_trans hold hline
    have hnonzero : ∀ {q : Config.Pos}, 1 ≤ q.line → q ≠ .zero := by
      rintro _ hq rfl
      exact absurd hq (by decide)
    have hpos' : 1 ≤ (m.pos range.start).line := by
      rw [m.pos_line]
      omega
    rw [hfound, m.range_of_line hpos] at hmoved
    rw [nameRange_of_ne (o := ⟨source, m.new, interpret⟩) (by rw [hmoved]; exact hnonzero hpos'),
      nameRange_of_ne (o := ⟨source, m.old, interpret⟩) (by rw [hfound]; exact hnonzero hpos),
      hmoved, hfound, m.range_of_line (by exact hpos), m.advance_pos hline]

/-- A name is cut into the same steps wherever it is written. -/
theorem traversalOf_move (hold : 1 ≤ m.old.line) (name : String) {range : Range}
    (h : m.old.line ≤ range.start.line) :
    traversalOf name (m.range range) =
      match traversalOf name range with
      | .ok t => .ok (t.mapRange m.range)
      | .error e => .error (e.mapRange m.range) := by
  have hgather := gather_mapRange m.range [] none
    (Config.scan Config.splitStep range.file range.start (encode name.toList)).tokens
  rw [← Config.scan_move hold h] at hgather
  rw [traversalOf_eq, traversalOf_eq, m.range_of_line (Int.le_trans hold h)]
  simp only [List.map_nil, Option.map_none] at hgather
  rw [hgather]
  cases gather [] none
      (Config.scan Config.splitStep range.file range.start (encode name.toList)).tokens with
  | error e => rfl
  | ok steps => cases steps <;> rfl

/-- **A name refers to the same wherever it is written.** -/
theorem interpretName_move (hold : 1 ≤ m.old.line) (name : String) {range : Range}
    (h : m.old.line ≤ range.start.line) :
    (∀ context, (interpretName name (m.range range)).value context =
      ((interpretName name range).value context).map (Result.mapRange m.range)) ∧
    (interpretName name (m.range range)).variables =
      (interpretName name range).variables.map (Traversal.mapRange m.range) := by
  unfold interpretName Reference.ofName
  rw [traversalOf_move hold name h]
  cases traversalOf name range with
  | ok t =>
    refine ⟨fun context => ?_, rfl⟩
    show ((t.mapRange m.range).value context).mapError LookupFailure.fault =
      ((t.value context).mapError LookupFailure.fault).map (Result.mapRange m.range)
    rw [t.value_mapRange context]
    cases t.value context <;> rfl
  | error e => cases e <;> exact ⟨fun context => rfl, rfl⟩

/-! ### Expressions -/

/-- An expression and the same one where it is moved to. -/
structure Moved (m : Move) (e e' : Expression) : Prop where
  /-- Apart from positions, the trees are the same. -/
  tree : ∃ n n' : Node Origin, e.root = n.adopt e.origin ∧ e'.root = n'.adopt e'.origin ∧
    n'.unplaced = n.unplaced
  nodes : e'.root.subtrees.map e'.nodeRange = e.root.subtrees.map fun n => m.range (e.nodeRange n)
  range : e'.range = m.range e.range
  names : e'.nameRanges = e.nameRanges.map fun entry => (entry.1, m.range entry.2)
  «variables» : e'.variables = e.variables.map (Traversal.mapRange m.range)
  value : ∀ context, (∀ ds, ¬CallExplainsIn (.ofContext context) e.root ds) →
    e'.value context = (e.value context).map (Result.mapRange m.range)
  /-- Where the evaluation comes to a function that explains why it fails, both say what the
  function says. -/
  explained : ∀ context ds, CallExplainsIn (.ofContext context) e.root ds →
    e.value context = .ok ⟨.dynamic, ds⟩ ∧ e'.value context = .ok ⟨.dynamic, ds⟩

/-- What two readings of a text come to that differ in where it begins. -/
inductive Alike (m : Move) :
    Except Kind (Except Diagnostics Expression) → Except Kind (Except Diagnostics Expression) → Prop
  | read {e e' : Expression} (h : Moved m e e') : Alike m (.ok (.ok e)) (.ok (.ok e'))
  | refused (diagnostics : Diagnostics) : Alike m (.ok (.error diagnostics))
      (.ok (.error (diagnostics.map (Diagnostic.mapRange m.range))))
  | broken (kind : Kind) : Alike m (.error kind) (.error kind)

/-- The names of an expression, for a second owner who finds them elsewhere. -/
theorem accesses_moved {n : Node Origin} (hraw : n.Raw) (o o' : Origin)
    (f : Template.Pos → Template.Pos) :
    accesses ((n.moved f).adopt o') =
      (accesses (n.adopt o)).map fun (_, p, name) => (o', f p, name) := by
  unfold accesses
  rw [Node.subtrees_adopt, Node.subtrees_adopt, Node.subtrees_moved, List.map_map,
    List.filterMap_map, List.filterMap_map, List.map_filterMap]
  refine List.filterMap_congr fun k hk => ?_
  have hkraw := hraw k hk
  cases k with
  | access owner p name =>
    cases owner with
    | none => simp
    | some owner => cases hkraw
  | _ => simp

theorem owner_of_mem_accesses {n : Node Origin} (hraw : n.Raw) {origin o : Origin}
    {p : Template.Pos} {name : String} (h : (o, p, name) ∈ accesses (n.adopt origin)) :
    o = origin :=
  Option.some.inj ((owner_of_mem_subtrees_adopt hraw (mem_accesses.mp h)).1 _ p name rfl)

section Value

variable {e e' : Expression} {context : Option Context}

/-- The value of an expression moves as its evaluation does, unless that ends in an
explanation. -/
theorem value_move
    (h : Moves m.range (Evaluation.eval (.ofContext context) e.root)
      (Evaluation.eval (.ofContext context) e'.root))
    (hunexplained : ∀ ds, ¬ExplainedIn (.ofContext context) e.root ds) :
    e'.value context = (e.value context).map (Result.mapRange m.range) := by
  have hroot := h []
  rw [List.map_nil] at hroot
  cases hr : Evaluation.eval (.ofContext context) e.root [] with
  | ok r =>
    rw [hr] at hroot
    rw [value_of_eval hr, value_of_eval hroot]
    rfl
  | error failure =>
    rw [hr] at hroot
    have hfails := (eval_failsWith _ _ [] failure).mp hr
    rw [value_of_failsIn hfails, value_of_failsIn ((eval_failsWith _ _ [] _).mp hroot)]
    -- the problem is put in words without a place, or has its places moved
    cases failure with
    | error error =>
      cases error with
      | explained ds => exact absurd (failsIn_explained_iff.mp hfails) (hunexplained ds)
      | _ => rfl
    | _ => rfl

/-- An explanation is the same wherever the expression is. -/
theorem value_explained
    (h : Moves m.range (Evaluation.eval (.ofContext context) e.root)
      (Evaluation.eval (.ofContext context) e'.root)) {ds : Diagnostics}
    (hexplained : ExplainedIn (.ofContext context) e.root ds) :
    e.value context = .ok ⟨.dynamic, ds⟩ ∧ e'.value context = .ok ⟨.dynamic, ds⟩ := by
  have hfails := (eval_failsWith _ _ [] _).mpr (failsIn_explained_iff.mpr hexplained)
  have hroot := h []
  rw [List.map_nil, hfails] at hroot
  have hexplained' : ExplainedIn (.ofContext context) e'.root ds :=
    failsIn_explained_iff.mp ((eval_failsWith _ _ [] _).mp hroot)
  exact ⟨value_of_explained hexplained, value_of_explained hexplained'⟩

end Value

section Reading

variable {text file : String} {n : Node Origin}

/-- What an expression that was read from a text knows of it. -/
abbrev originAt (text : String) (start : Config.Pos) : Origin :=
  ⟨encode text.toList, start, interpretName⟩

/-- A name that was read refers to the same wherever the text begins. -/
theorem lookup_move (hold : 1 ≤ m.old.line) (hnew : 1 ≤ m.new.line)
    (h : Template.parse text (toTemplatePos file m.old) = .ok n) {k : Node Origin}
    (hk : k ∈ n.subtrees) {name : String} (hname : k.name? = some name) :
    (∀ context, ((originAt text m.new).lookup (m.templatePos k.pos) name).value context =
      (((originAt text m.old).lookup k.pos name).value context).map (Result.mapRange m.range)) ∧
    ((originAt text m.new).lookup (m.templatePos k.pos) name).variables =
      ((originAt text m.old).lookup k.pos name).variables.map (Traversal.mapRange m.range) := by
  -- where a name starts there is a line, so its range is not before the text
  have hline : m.old.line ≤ ((originAt text m.old).nameRange k.pos name).start.line := by
    obtain ⟨offset, hpos, hstart, -, -⟩ := standsAt_of_parse h hk hname
    obtain ⟨range, hrange, -⟩ := Option.map_eq_some_iff.mp (place?_of_startable hstart file m.old)
    rw [Origin.nameRange_start, hpos, Origin.rangeAt, rangeOf, hrange, Option.getD_some]
    exact line_le_of_place? hrange
  rw [Origin.lookup, nameRange_move hold hnew]
  exact interpretName_move hold name hline

/-- **A tree that is read elsewhere makes the same expression.** -/
theorem moved_ofNode (hold : 1 ≤ m.old.line) (hnew : 1 ≤ m.new.line)
    (h : Template.parse text (toTemplatePos file m.old) = .ok n) :
    Moved m (ofNode n (originAt text m.old))
      (ofNode (n.moved m.templatePos) (originAt text m.new)) := by
  have hraw : n.Raw := Template.parse_raw h
  have hrange : ∀ p, (originAt text m.new).rangeAt (m.templatePos p) =
      m.range ((originAt text m.old).rangeAt p) := fun p => rangeOf_move hold p _
  have husual : Evaluation.IsUsual (n.adopt (originAt text m.old)) := isUsual_adopt hraw rfl
  have heval : ∀ context, Moves m.range
      (Evaluation.eval (.ofContext context) (n.adopt (originAt text m.old)))
      (Evaluation.eval (.ofContext context)
        ((n.moved m.templatePos).adopt (originAt text m.new))) := fun context =>
    eval_moves hrange ⟨hraw, fun p name hmem => (lookup_move hold hnew h hmem rfl).1⟩
  constructor
  case tree => exact ⟨n, n.moved m.templatePos, rfl, rfl, n.unplaced_moved⟩
  case nodes =>
    show ((n.moved m.templatePos).adopt _).subtrees.map _ = (n.adopt _).subtrees.map _
    rw [Node.subtrees_adopt, Node.subtrees_adopt, Node.subtrees_moved, List.map_map, List.map_map,
      List.map_map]
    refine List.map_congr_left fun k _ => ?_
    simp only [Function.comp_apply, nodeRange, Node.pos_adopt, Node.pos_moved]
    exact hrange k.pos
  case range =>
    simp only [range, nodeRange, ofNode, Node.pos_adopt, Node.pos_moved]
    exact hrange n.pos
  case names =>
    simp only [nameRanges, ofNode, accesses_moved hraw (originAt text m.old), List.map_map]
    refine List.map_congr_left fun access hmem => ?_
    obtain ⟨o, p, name⟩ := access
    obtain rfl := owner_of_mem_accesses hraw hmem
    exact congrArg (Prod.mk name) (nameRange_move hold hnew _ _ p name)
  case «variables» =>
    simp only [«variables», ofNode, accesses_moved hraw (originAt text m.old), List.flatMap_map,
      List.map_flatMap]
    refine List.flatMap_congr fun access hmem => ?_
    obtain ⟨o, p, name⟩ := access
    obtain rfl := owner_of_mem_accesses hraw hmem
    have haccess := mem_accesses.mp hmem
    rw [Node.subtrees_adopt] at haccess
    obtain ⟨k, hk, heq⟩ := List.mem_map.mp haccess
    have hname : k.name? = some name := by rw [← name?_adopt (originAt text m.old), heq]; rfl
    have hpos : k.pos = p := by rw [← Node.pos_adopt (originAt text m.old), heq]; rfl
    exact hpos ▸ (lookup_move hold hnew h hk hname).2
  case value =>
    intro context hunexplained
    refine value_move (heval context) fun ds hexplained => hunexplained ds ?_
    exact hexplained.callExplainsIn husual
  case explained =>
    intro context ds hexplains
    exact value_explained (heval context) hexplains.explainedIn

end Reading

/-- **Moving a template moves its ranges and changes nothing else.**  A text is read as the
same expression wherever it begins, is wrong for the same reason, or cannot be read; the
ranges of the nodes and names, of the paths, and of everything that is reported in whatever
context, are moved along.  Only what a function says that explains its failure is about
places of its own, and stays as it is. -/
theorem parse_moves (text file : String) (hold : 1 ≤ m.old.line) (hnew : 1 ≤ m.new.line) :
    Alike m (parse text file m.old interpretName) (parse text file m.new interpretName) := by
  have hmoved : (Template.parse text (toTemplatePos file m.new) :
      Except Template.ParseFailure (Node Origin)) =
      Template.carry m.templatePos (Node.moved m.templatePos)
        (Template.parse text (toTemplatePos file m.old)) :=
    Template.parse_moved (m.locate_templatePos file text.toList)
  unfold parse
  rw [hmoved]
  cases h : (Template.parse text (toTemplatePos file m.old) :
      Except Template.ParseFailure (Node Origin)) with
  | ok n => exact .read (moved_ofNode hold hnew h)
  | error failure =>
    cases failure with
    | notText kind => exact .broken kind
    | malformed e =>
      simp only [Template.carry, Template.ParseFailure.moved, Problem.ofSyntaxError,
        Problem.diagnostics, rangeOf_move hold]
      exact .refused [.error _ _ (some (rangeOf e.pos (encode text.toList) m.old))]

/-- From the middle of a file to the beginning of one, where the name on the third line stays
in its column. -/
theorem parse_moves_threeLines : ∃ e e' : Expression,
    (1 : Int) ≤ 3 ∧ (1 : Int) ≤ 1 ∧
      parse threeLines "main.tf" ⟨3, 7, 40⟩ interpretName = .ok (.ok e) ∧
      parse threeLines "main.tf" ⟨1, 1, 0⟩ interpretName = .ok (.ok e') ∧
      Moved ⟨⟨3, 7, 40⟩, ⟨1, 1, 0⟩⟩ e e' := by
  have hold : (1 : Int) ≤ 3 := by decide
  have hnew : (1 : Int) ≤ 1 := by decide
  have h := parse_moves (m := ⟨⟨3, 7, 40⟩, ⟨1, 1, 0⟩⟩) threeLines "main.tf" hold hnew
  obtain ⟨e, hparse⟩ : ∃ e, parse threeLines "main.tf" ⟨3, 7, 40⟩ interpretName = .ok (.ok e) :=
    ⟨_, by rw [parse, parse_threeLines]⟩
  obtain ⟨other, hother⟩ : ∃ other, parse threeLines "main.tf" ⟨1, 1, 0⟩ interpretName = other :=
    ⟨_, rfl⟩
  rw [hparse, hother] at h
  cases h with
  | read h => exact ⟨e, _, hold, hnew, hparse, hother, h⟩

/-- A place in another file. -/
private def units : Range :=
  ⟨"units.tf", ⟨7, 3, 90⟩, ⟨7, 8, 95⟩⟩

/-- A report about that place. -/
private def elsewhere : Diagnostic :=
  .error "Unknown unit" "There is no such unit." (some units)

/-- A context in which the function `f` explains its failure by that report. -/
private def pointing : Context :=
  ⟨⟨[], [("f", some ⟨"f", some ⟨0, some 0⟩, fun _ => .error (.explained [elsewhere])⟩)]⟩, []⟩

/-- The expression `${f()}` on the first line of a file or on the third. -/
private def unit (start : Config.Pos) (line : Int) : Expression :=
  ofNode (.output ⟨"main.tf", line, 1⟩ [.call none ⟨"main.tf", line, 3⟩ "f" []])
    (originAt "${f()}" start)

/-- What `f` says is about the same place wherever `${f()}` stands. -/
theorem value_unit_elsewhere :
    parse "${f()}" "main.tf" .initial interpretName = .ok (.ok (unit .initial 1)) ∧
      parse "${f()}" "main.tf" ⟨3, 1, 40⟩ interpretName = .ok (.ok (unit ⟨3, 1, 40⟩ 3)) ∧
      (unit ⟨3, 1, 40⟩ 3).value (some pointing) = .ok ⟨.dynamic, [elsewhere]⟩ ∧
      ((unit .initial 1).value (some pointing)).map
        (Result.mapRange (Move.range ⟨.initial, ⟨3, 1, 40⟩⟩)) ≠ .ok ⟨.dynamic, [elsewhere]⟩ := by
  have heval : ∀ start line,
      Evaluation.eval (.ofContext (some pointing)) (unit start line).root [] =
        .error (.error (.explained [elsewhere])) := fun start line => rfl
  have hvalue : ∀ start line, (unit start line).value (some pointing) =
      .ok ⟨.dynamic, [elsewhere]⟩ := fun start line =>
    value_of_explained (failsIn_explained_iff.mp ((eval_failsWith _ _ [] _).mp (heval start line)))
  have hmoved : Move.range ⟨.initial, ⟨3, 1, 40⟩⟩ units ≠ units := by decide
  refine ⟨by with_unfolding_all rfl, by with_unfolding_all rfl, hvalue _ _, ?_⟩
  rw [hvalue]
  simpa [Except.map, Result.mapRange, Diagnostic.mapRange, elsewhere, Diagnostic.error] using hmoved

end Expression

end Interpolation
