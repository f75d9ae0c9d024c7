/-
Where a template stands makes no difference to its tree.

* `ofPhrase_moved`, `ofPieces_moved`, `ofString_moved` — when all places are moved, the
  nodes that are read, or the error that is found, are moved along;
* `ofString_moved` — how deep string literals are allowed to nest does not matter as long as
  it is no less than the length of the text;
* `parse_moved` — the same for a whole template;
* `expression_unplaced` — apart from positions, an expression means the same in every
  template and at every offset.

Design notes: two things change with the place: the offset at which a text begins, and the
position that belongs to an offset.  Both are moved at the same time here, so that the
parser is gone through once; `f` moves positions and `d` is how much further back the text
begins.
-/
import Interpolation.Proofs.Template.Printing
import Interpolation.Proofs.Template.Shifting
import Interpolation.Proofs.Template.Strings

namespace Interpolation.Template

variable {Owner : Type} {f : Pos → Pos} {d : Nat}

/-! ### Moving nodes and errors -/

namespace Node

/-- A node with its own position moved. -/
def moveOwn (f : Pos → Pos) : Node Owner → Node Owner
  | .bare pos kids => .bare (f pos) kids
  | .output pos parts => .output (f pos) parts
  | .literal pos value => .literal (f pos) value
  | .access owner pos name => .access owner (f pos) name
  | .call owner pos function arguments => .call owner (f pos) function arguments
  | .unary pos op operand => .unary (f pos) op operand
  | .binary pos op left right => .binary (f pos) op left right
  | .conditional pos condition yes no => .conditional (f pos) condition yes no
  | .index pos target key => .index (f pos) target key

/-- A tree with all positions moved. -/
def moved (f : Pos → Pos) (n : Node Owner) : Node Owner :=
  n.rebuild (moveOwn f)

@[simp] theorem moved_bare (pos : Pos) (kids : List (Node Owner)) :
    (Node.bare pos kids).moved f = .bare (f pos) (kids.map (moved f)) := by
  simp [moved, rebuild, moveOwn, rebuildAll_eq_map]

@[simp] theorem moved_output (pos : Pos) (parts : List (Node Owner)) :
    (Node.output pos parts).moved f = .output (f pos) (parts.map (moved f)) := by
  simp [moved, rebuild, moveOwn, rebuildAll_eq_map]

@[simp] theorem moved_literal (pos : Pos) (value : Value) :
    (Node.literal pos value : Node Owner).moved f = .literal (f pos) value := by
  simp [moved, rebuild, moveOwn]

@[simp] theorem moved_access (owner : Option Owner) (pos : Pos) (name : String) :
    (Node.access owner pos name).moved f = .access owner (f pos) name := by
  simp [moved, rebuild, moveOwn]

@[simp] theorem moved_call (owner : Option Owner) (pos : Pos) (function : String)
    (arguments : List (Node Owner)) :
    (Node.call owner pos function arguments).moved f =
      .call owner (f pos) function (arguments.map (moved f)) := by
  simp [moved, rebuild, moveOwn, rebuildAll_eq_map]

@[simp] theorem moved_unary (pos : Pos) (op : UnaryOp) (operand : Node Owner) :
    (Node.unary pos op operand).moved f = .unary (f pos) op (operand.moved f) := by
  simp [moved, rebuild, moveOwn]

@[simp] theorem moved_binary (pos : Pos) (op : BinaryOp) (left right : Node Owner) :
    (Node.binary pos op left right).moved f =
      .binary (f pos) op (left.moved f) (right.moved f) := by
  simp [moved, rebuild, moveOwn]

@[simp] theorem moved_conditional (pos : Pos) (condition yes no : Node Owner) :
    (Node.conditional pos condition yes no).moved f =
      .conditional (f pos) (condition.moved f) (yes.moved f) (no.moved f) := by
  simp [moved, rebuild, moveOwn]

@[simp] theorem moved_index (pos : Pos) (target key : Node Owner) :
    (Node.index pos target key).moved f = .index (f pos) (target.moved f) (key.moved f) := by
  simp [moved, rebuild, moveOwn]

@[simp] theorem pos_moved (n : Node Owner) : (n.moved f).pos = f n.pos := by
  cases n <;> simp [pos]

@[simp] theorem kids_moved (n : Node Owner) : (n.moved f).kids = n.kids.map (moved f) := by
  cases n <;> simp [kids]

theorem subtrees_moved (n : Node Owner) :
    (n.moved f).subtrees = n.subtrees.map (moved f) :=
  subtrees_map kids_moved n

/-- Positions are forgotten when they are all moved to the same place. -/
theorem unplaced_eq_moved (n : Node Owner) : n.unplaced = n.moved fun _ => .zero := by
  have hown : (unplace : Node Owner → Node Owner) = moveOwn fun _ => .zero := by
    funext n
    cases n <;> rfl
  rw [unplaced, moved, hown]

theorem moved_moved (g : Pos → Pos) (n : Node Owner) : (n.moved f).moved g = n.moved (g ∘ f) := by
  induction n with
  | bare pos kids ih => simpa using ih
  | output pos parts ih => simpa using ih
  | call owner pos function arguments ih => simpa using ih
  | _ => simp_all

/-- Apart from positions, a tree that is moved stays the same. -/
theorem unplaced_moved (n : Node Owner) : (n.moved f).unplaced = n.unplaced := by
  rw [unplaced_eq_moved, unplaced_eq_moved, moved_moved]
  rfl

end Node

/-- A failure with its position moved. -/
def ParseFailure.moved (f : Pos → Pos) : ParseFailure → ParseFailure
  | .malformed e => .malformed ⟨e.cause, f e.pos⟩
  | .notText kind => .notText kind

/-- What a step of reading comes to when positions are moved, and its result with them. -/
def carry {α β : Type} (f : Pos → Pos) (g : α → β) :
    Except ParseFailure α → Except ParseFailure β
  | .ok a => .ok (g a)
  | .error e => .error (e.moved f)

section Carry

variable {α β γ δ : Type} {g : α → β} {h : γ → δ}

theorem carry_eq_ok {r : Except ParseFailure α} {b : β} :
    carry f g r = .ok b ↔ ∃ a, r = .ok a ∧ g a = b := by
  cases r with
  | ok a => simp [carry]
  | error e => simp [carry]

theorem carry_bind {k : α → Except ParseFailure γ} {k' : β → Except ParseFailure δ}
    (hk : ∀ a, k' (g a) = carry f h (k a)) (r : Except ParseFailure α) :
    carry f g r >>= k' = carry f h (r >>= k) := by
  cases r with
  | ok a => exact hk a
  | error e => rfl

theorem carry_mapM {k : α → Except ParseFailure γ} {k' : β → Except ParseFailure δ}
    (hk : ∀ a, k' (g a) = carry f h (k a)) (as : List α) :
    (as.map g).mapM k' = carry f (List.map h) (as.mapM k) := by
  induction as with
  | nil => rfl
  | cons a rest ih =>
    rw [List.map_cons, List.mapM_cons, List.mapM_cons, hk, ih]
    refine carry_bind (fun c => ?_) _
    refine carry_bind (fun cs => ?_) _
    rfl

end Carry

/-! ### Moving what is read -/

section Places

variable {locate locate' : Nat → Pos}
  {string string' : Nat → List Char → Except ParseFailure (Node Owner)}

theorem Node.ofNumber_moved (pos : Pos) (digits : List Char) :
    (ofNumber (f pos) digits : Except ParseFailure (Node Owner)) =
      carry f (moved f) (ofNumber pos digits) := by
  unfold ofNumber
  split <;> simp [carry, ParseFailure.moved]

theorem ofArguments_moved {arguments : List Phrase}
    (h : ∀ a ∈ arguments, Node.ofPhrase locate' string' (a.shift d) =
      carry f (Node.moved f) (Node.ofPhrase locate string a)) :
    Node.ofArguments locate' string' (arguments.map (Phrase.shift d)) =
      carry f (List.map (Node.moved f)) (Node.ofArguments locate string arguments) := by
  induction arguments with
  | nil => rfl
  | cons a rest ih =>
    obtain ⟨ha, hrest⟩ := List.forall_mem_cons.mp h
    rw [List.map_cons, Node.ofArguments, Node.ofArguments, ha, ih hrest]
    refine carry_bind (fun n => ?_) _
    refine carry_bind (fun nodes => ?_) _
    rfl

/-- **The node of a phrase moves with the phrase**, if those of the string literals in it
do. -/
theorem ofPhrase_moved (hlocate : ∀ offset, locate' (offset + d) = f (locate offset))
    {p : Phrase} (hstring : ∀ s ∈ p.strings,
      string' (s.offset + d) s.chars = carry f (Node.moved f) (string s.offset s.chars)) :
    Node.ofPhrase locate' string' (p.shift d) =
      carry f (Node.moved f) (Node.ofPhrase locate string p) := by
  refine Phrase.induction_strings ?number ?bool ?quoted ?name ?call ?group ?index ?unary ?binary
    ?conditional p hstring
  case number =>
    intro offset digits
    rw [Phrase.shift, Node.ofPhrase, Node.ofPhrase, hlocate, Node.ofNumber_moved]
  case bool =>
    intro offset b
    rw [Phrase.shift, Node.ofPhrase, Node.ofPhrase, hlocate, carry, Node.moved_literal]
  case quoted =>
    intro offset body hbody
    rw [Phrase.shift, Node.ofPhrase, Node.ofPhrase, Nat.add_right_comm]
    exact hbody
  case name =>
    intro offset text
    rw [Phrase.shift, Node.ofPhrase, Node.ofPhrase, hlocate, carry, Node.moved_access]
  case call =>
    intro offset function arguments ih
    rw [Phrase.shift, Node.ofPhrase, Node.ofPhrase, hlocate, Phrase.shiftAll_eq_map,
      ofArguments_moved ih]
    exact carry_bind (fun nodes => by simp [carry, Pure.pure, Except.pure]) _
  case group =>
    intro offset inner ih
    rw [Phrase.shift, Node.ofPhrase, Node.ofPhrase, ih]
  case index =>
    intro target key iht ihk
    rw [Phrase.shift, Node.ofPhrase, Node.ofPhrase, Phrase.start_shift, hlocate, iht, ihk]
    refine carry_bind (fun t => ?_) _
    exact carry_bind (fun k => by simp [carry, Pure.pure, Except.pure]) _
  case unary =>
    intro offset op operand ih
    rw [Phrase.shift, Node.ofPhrase, Node.ofPhrase, hlocate, ih]
    exact carry_bind (fun n => by simp [carry, Pure.pure, Except.pure]) _
  case binary =>
    intro op left right ihl ihr
    rw [Phrase.shift, Node.ofPhrase, Node.ofPhrase, Phrase.start_shift, hlocate, ihl, ihr]
    refine carry_bind (fun l => ?_) _
    exact carry_bind (fun r => by simp [carry, Pure.pure, Except.pure]) _
  case conditional =>
    intro condition yes no ihc ihy ihn
    rw [Phrase.shift, Node.ofPhrase, Node.ofPhrase, Phrase.start_shift, hlocate, ihc, ihy, ihn]
    refine carry_bind (fun c => ?_) _
    refine carry_bind (fun y => ?_) _
    exact carry_bind (fun n => by simp [carry, Pure.pure, Except.pure]) _

/-! ### Moving templates -/

theorem expression_moved (hlocate : ∀ offset, locate' (offset + d) = f (locate offset))
    {source : List Char} (hstring : ∀ offset body, body.length < source.length →
      string' (offset + d) body = carry f (Node.moved f) (string offset body)) (offset : Nat) :
    expression locate' string' (offset + d) source =
      carry f (Node.moved f) (expression locate string offset source) := by
  rw [expression, expression, readPhrase_shift]
  split
  · rw [hlocate]
    rfl
  · cases hread : readPhrase offset source with
    | error e => simp [hlocate, carry, ParseFailure.moved]
    | ok p =>
      exact ofPhrase_moved hlocate fun s hs =>
        hstring s.offset s.chars (between_quotes hread hs).2.inside.length_lt

/-- The source of an interpolation is shorter than the template around it. -/
theorem length_source_lt {offset place : Nat} {cs source : List Char}
    (h : .code place source ∈ Piece.split offset cs) : source.length < cs.length :=
  (Piece.between_braces h).inside.length_lt

theorem ofPieces_moved (hlocate : ∀ offset, locate' (offset + d) = f (locate offset))
    {pieces : List Piece} (hstring : ∀ place source, .code place source ∈ pieces →
      ∀ offset body, body.length < source.length →
        string' (offset + d) body = carry f (Node.moved f) (string offset body)) :
    ofPieces locate' string' (pieces.map (Piece.shift d)) =
      carry f (List.map (Node.moved f)) (ofPieces locate string pieces) := by
  induction pieces with
  | nil => rfl
  | cons piece rest ih =>
    have hpiece : ofPiece locate' string' (piece.shift d) =
        carry f (Node.moved f) (ofPiece locate string piece) := by
      cases piece with
      | text offset chars => simp [Piece.shift, ofPiece, carry, hlocate]
      | code offset source =>
        exact expression_moved hlocate (hstring offset source List.mem_cons_self) offset
      | unclosed offset => simp [Piece.shift, ofPiece, carry, ParseFailure.moved, hlocate]
    rw [List.map_cons, ofPieces, ofPieces, hpiece,
      ih fun place source hmem => hstring place source (List.mem_cons_of_mem _ hmem)]
    refine carry_bind (fun n => ?_) _
    refine carry_bind (fun nodes => ?_) _
    rfl

theorem unescapePart_moved (part : Node Owner) :
    unescapePart (part.moved f) = carry f (Node.moved f) (unescapePart part) := by
  cases part with
  | literal pos value => cases value <;> simp [unescapePart, carry, ParseFailure.moved]
  | _ => rfl

theorem closeString_moved (pos : Pos) (parts : List (Node Owner)) :
    closeString (f pos) (parts.map (Node.moved f)) =
      carry f (Node.moved f) (closeString pos parts) := by
  rw [closeString, closeString, carry_mapM unescapePart_moved]
  refine carry_bind (fun parts => ?_) _
  cases parts with
  | nil => rfl
  | cons first rest =>
    cases rest with
    | nil => cases first <;> simp [carry, Pure.pure, Except.pure, Node.moved] <;> rfl
    | cons second others => simp [carry, Pure.pure, Except.pure]

theorem ofString_nil (level offset : Nat) :
    (ofString locate level offset [] : Except ParseFailure (Node Owner)) =
      .ok (.literal (locate offset) (.text "")) := by
  cases level with
  | zero => rfl
  | succ level => rw [ofString, Piece.split_nil]; rfl

/-- **String literals move with the text around them**, however deep they may be nested. -/
theorem ofString_moved (hlocate : ∀ offset, locate' (offset + d) = f (locate offset))
    {level level' : Nat} {body : List Char} (hlevel : body.length ≤ level)
    (hlevel' : body.length ≤ level') (offset : Nat) :
    (ofString locate' level' (offset + d) body : Except ParseFailure (Node Owner)) =
      carry f (Node.moved f) (ofString locate level offset body) := by
  induction level generalizing level' body offset with
  | zero =>
    obtain rfl := List.length_eq_zero_iff.mp (Nat.le_zero.mp hlevel)
    rw [ofString_nil, ofString_nil, hlocate]
    simp [carry]
  | succ level ih =>
    cases level' with
    | zero =>
      obtain rfl := List.length_eq_zero_iff.mp (Nat.le_zero.mp hlevel')
      rw [ofString_nil, ofString_nil, hlocate]
      simp [carry]
    | succ level' =>
      have hpieces : ofPieces locate' (ofString locate' level')
          ((Piece.split offset body).map (Piece.shift d)) = carry f (List.map (Node.moved f))
            (ofPieces locate (ofString locate level) (Piece.split offset body) :
              Except ParseFailure (List (Node Owner))) := by
        refine ofPieces_moved hlocate fun place source hmem place' inner hinner => ?_
        have := length_source_lt hmem
        exact ih (by omega) (by omega) place'
      rw [ofString, ofString, Piece.split_shift, hpieces, hlocate]
      exact carry_bind (fun parts => closeString_moved _ parts) _

/-- **A template moves with its positions.** -/
theorem parse_moved {text : String} {start start' : Pos}
    (hstart : ∀ offset, start'.locate text.toList offset = f (start.locate text.toList offset)) :
    (parse text start' : Except ParseFailure (Node Owner)) =
      carry f (Node.moved f) (parse text start) := by
  have hlocate : ∀ offset,
      start'.locate text.toList (offset + 0) = f (start.locate text.toList offset) := hstart
  have hpieces : ofPieces (start'.locate text.toList)
      (ofString (start'.locate text.toList) text.toList.length)
      ((Piece.split 0 text.toList).map (Piece.shift 0)) = carry f (List.map (Node.moved f))
        (ofPieces (start.locate text.toList)
          (ofString (start.locate text.toList) text.toList.length) (Piece.split 0 text.toList) :
            Except ParseFailure (List (Node Owner))) := by
    refine ofPieces_moved hlocate fun place source hmem place' inner hinner => ?_
    have := length_source_lt hmem
    exact ofString_moved hlocate (by omega) (by omega) place'
  rw [← Piece.split_shift] at hpieces
  rw [parse, parse, hpieces]
  refine carry_bind (fun parts => ?_) _
  have hroot : start' = f start := hstart 0
  simp [carry, Pure.pure, Except.pure, hroot]

/-! ### Expressions apart from positions -/

/-- The node of an expression apart from positions, whatever template it is part of. -/
def meaning (source : List Char) : Except ParseFailure (Node Owner) :=
  expression (fun _ => .zero) (ofString (fun _ => .zero) source.length) 0 source

/-- **An expression means the same everywhere.** -/
theorem expression_unplaced {source : List Char} {level : Nat} (h : source.length ≤ level)
    (offset : Nat) :
    carry (fun _ => .zero) Node.unplaced
        (expression locate (ofString locate level) offset source) =
      (meaning source : Except ParseFailure (Node Owner)) := by
  have hforget : (Node.unplaced : Node Owner → Node Owner) = Node.moved fun _ => .zero :=
    funext Node.unplaced_eq_moved
  -- first the positions are forgotten, then the offset
  have hpositions : ∀ {locate : Nat → Pos} {level : Nat}, source.length ≤ level → ∀ offset,
      expression (fun _ => .zero) (ofString (fun _ => .zero) source.length) (offset + 0) source =
        carry (fun _ => .zero) (Node.moved fun _ => .zero)
          (expression locate (ofString locate level) offset source :
            Except ParseFailure (Node Owner)) := by
    intro locate level h offset
    refine expression_moved (fun _ => rfl) (fun place body hbody => ?_) offset
    exact ofString_moved (fun _ => rfl) (by omega) (by omega) place
  have hoffset : expression (fun _ => .zero) (ofString (fun _ => .zero) source.length) (0 + offset)
      source = carry (fun _ => .zero) (Node.moved fun _ => .zero)
        (meaning source : Except ParseFailure (Node Owner)) := by
    refine expression_moved (fun _ => rfl) (fun place body hbody => ?_) 0
    exact ofString_moved (fun _ => rfl) (by omega) (by omega) place
  rw [Nat.zero_add] at hoffset
  rw [hforget, ← hpositions h offset, Nat.add_zero, hoffset, meaning,
    ← hpositions (Nat.le_refl _) 0]

end Places

end Interpolation.Template
