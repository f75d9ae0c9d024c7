/-
Raw trees: what reading a text gives.

* `parse_raw` — in a tree that was read from a text no name has an owner and every
  literal is text, a number or a bool;
* `raw_iff` — a tree is raw when its root is and its kids are;
* `Inherits.ofPhrase`, `Inherits.ofPieces` — what the nodes of an expression have as soon as
  their kids have it, they have if the nodes of its string literals do.

Design notes: the argument follows the reader from the outside in: the pieces of a
template, the phrase of an expression, and the string literals in it, whose bodies
are templates again.  What is read of a string literal is a parameter of the reader, so
what it has is a hypothesis (`Inherits.ofPhrase`), and for rawness the induction on the
nesting supplies it (`ofString_raw`).
-/
import Interpolation.Proofs.Template.Strings
import Interpolation.Proofs.Value.Settled

namespace Interpolation.Template

variable {Owner : Type}

/-- Whether a value can be written as a literal. -/
def isLiteral : Value → Bool
  | .text _ | .int _ | .float _ | .bool _ => true
  | _ => false

theorem isAtom_of_isLiteral {v : Value} (h : isLiteral v = true) : v.isAtom = true := by
  cases v with
  | text | int | float | bool => rfl
  | _ => cases h

namespace Node

/-- Whether a node is one that a text can give. -/
def isRaw : Node Owner → Bool
  | .bare .. => false
  | .literal _ value => isLiteral value
  | .access owner _ _ | .call owner _ _ _ => owner.isNone
  | _ => true

/-- Every node of the tree is one that a text can give. -/
def Raw (n : Node Owner) : Prop :=
  ∀ m ∈ n.subtrees, m.isRaw = true

theorem raw_iff {n : Node Owner} : n.Raw ↔ n.isRaw = true ∧ ∀ k ∈ n.kids, k.Raw :=
  forall_mem_subtrees

theorem Raw.isRaw {n : Node Owner} (h : n.Raw) : n.isRaw = true :=
  (raw_iff.mp h).1

theorem Raw.kid {n k : Node Owner} (h : n.Raw) (hk : k ∈ n.kids) : k.Raw :=
  (raw_iff.mp h).2 k hk

theorem raw_leaf {n : Node Owner} (hn : n.isRaw = true) (hkids : n.kids = []) : n.Raw := by
  refine raw_iff.mpr ⟨hn, fun k hk => ?_⟩
  rw [hkids] at hk
  cases hk

/-- Literal text and expressions in a row. -/
def IsOutput : Node Owner → Prop
  | .output .. => True
  | _ => False

/-- A node of an expression has a property as soon as its kids have it. -/
def Inherits (Q : Node Owner → Prop) : Prop :=
  ∀ n : Node Owner, n.isRaw = true → ¬ n.IsOutput → (∀ k ∈ n.kids, Q k) → Q n

theorem inherits_raw : Inherits (Raw : Node Owner → Prop) :=
  fun _ hraw _ hkids => raw_iff.mpr ⟨hraw, hkids⟩

section Read

variable {Q : Node Owner → Prop} {locate : Nat → Pos}
  {string : Nat → List Char → Except ParseFailure (Node Owner)}

/-- All nodes of arguments have a property when the node of each argument has it. -/
theorem ofArguments_forall {arguments : List Phrase}
    (h : ∀ a ∈ arguments, ∀ n, ofPhrase locate string a = .ok n → Q n) {nodes : List (Node Owner)}
    (hnodes : ofArguments locate string arguments = .ok nodes) : ∀ n ∈ nodes, Q n := by
  induction arguments generalizing nodes with
  | nil =>
    rw [ofArguments] at hnodes
    cases hnodes
    simp
  | cons a rest ih =>
    obtain ⟨ha, hrest⟩ := List.forall_mem_cons.mp h
    rw [ofArguments] at hnodes
    obtain ⟨n, hn, hnodes⟩ := bind_eq_ok.mp hnodes
    obtain ⟨others, hothers, hnodes⟩ := bind_eq_ok.mp hnodes
    cases hnodes
    exact List.forall_mem_cons.mpr ⟨ha n hn, ih hrest hothers⟩

/-- **What the nodes of an expression inherit comes from the string literals in it.** -/
theorem Inherits.ofPhrase (hQ : Inherits Q) {p : Phrase}
    (hstring : ∀ s ∈ p.strings, ∀ n, string s.offset s.chars = .ok n → Q n) :
    ∀ n, Node.ofPhrase locate string p = .ok n → Q n := by
  refine Phrase.induction_strings ?number ?bool ?quoted ?name ?call ?group ?index ?unary ?binary
    ?conditional p hstring
  case number =>
    intro offset digits n h
    rw [Node.ofPhrase, ofNumber] at h
    split at h
    · cases h
      exact hQ _ rfl id (by simp [kids])
    · cases h
      exact hQ _ rfl id (by simp [kids])
    · cases h
  case bool =>
    intro offset b n h
    rw [Node.ofPhrase] at h
    cases h
    exact hQ _ rfl id (by simp [kids])
  case quoted =>
    intro offset body hbody n h
    rw [Node.ofPhrase] at h
    exact hbody n h
  case name =>
    intro offset text n h
    rw [Node.ofPhrase] at h
    cases h
    exact hQ _ rfl id (by simp [kids])
  case call =>
    intro offset function arguments ih n h
    rw [Node.ofPhrase] at h
    obtain ⟨nodes, hnodes, h⟩ := bind_eq_ok.mp h
    cases h
    exact hQ _ rfl id (ofArguments_forall ih hnodes)
  case group =>
    intro offset inner ih n h
    rw [Node.ofPhrase] at h
    exact ih n h
  case index =>
    intro target key iht ihk n h
    rw [Node.ofPhrase] at h
    obtain ⟨t, ht, h⟩ := bind_eq_ok.mp h
    obtain ⟨k, hk, h⟩ := bind_eq_ok.mp h
    cases h
    exact hQ _ rfl id (by simp [kids, iht t ht, ihk k hk])
  case unary =>
    intro offset op operand ih n h
    rw [Node.ofPhrase] at h
    obtain ⟨m, hm, h⟩ := bind_eq_ok.mp h
    cases h
    exact hQ _ rfl id (by simp [kids, ih m hm])
  case binary =>
    intro op left right ihl ihr n h
    rw [Node.ofPhrase] at h
    obtain ⟨l, hl, h⟩ := bind_eq_ok.mp h
    obtain ⟨r, hr, h⟩ := bind_eq_ok.mp h
    cases h
    exact hQ _ rfl id (by simp [kids, ihl l hl, ihr r hr])
  case conditional =>
    intro condition yes no ihc ihy ihn n h
    rw [Node.ofPhrase] at h
    obtain ⟨c, hc, h⟩ := bind_eq_ok.mp h
    obtain ⟨y, hy, h⟩ := bind_eq_ok.mp h
    obtain ⟨m, hm, h⟩ := bind_eq_ok.mp h
    cases h
    exact hQ _ rfl id (by simp [kids, ihc c hc, ihy y hy, ihn m hm])

theorem Inherits.ofPiece (hQ : Inherits Q) {piece : Piece}
    (hstring : ∀ s ∈ piece.literals, ∀ n, string s.offset s.chars = .ok n → Q n) {n : Node Owner}
    (h : Template.ofPiece locate string piece = .ok n) : Q n := by
  cases piece with
  | text offset chars =>
    cases h
    exact hQ _ rfl id (by simp [kids])
  | code offset source =>
    rw [Template.ofPiece, expression] at h
    rw [Piece.literals] at hstring
    split at h
    · cases h
    · split at h
      · cases h
      · next p hread =>
        rw [hread] at hstring
        exact hQ.ofPhrase hstring n h
  | unclosed offset => cases h

/-- **What the parts of a template inherit comes from the string literals in it.** -/
theorem Inherits.ofPieces (hQ : Inherits Q) {pieces : List Piece}
    (hstring : ∀ s ∈ pieces.flatMap Piece.literals, ∀ n,
      string s.offset s.chars = .ok n → Q n) {nodes : List (Node Owner)}
    (h : Template.ofPieces locate string pieces = .ok nodes) : ∀ n ∈ nodes, Q n := by
  induction pieces generalizing nodes with
  | nil =>
    cases h
    simp
  | cons piece rest ih =>
    rw [List.flatMap_cons, List.forall_mem_append] at hstring
    rw [Template.ofPieces] at h
    obtain ⟨n, hn, h⟩ := bind_eq_ok.mp h
    obtain ⟨others, hothers, h⟩ := bind_eq_ok.mp h
    cases h
    exact List.forall_mem_cons.mpr ⟨hQ.ofPiece hstring.1 hn, ih hstring.2 hothers⟩

theorem Inherits.unescapePart (hQ : Inherits Q) {part n : Node Owner} (hpart : Q part)
    (h : Template.unescapePart part = .ok n) : Q n := by
  unfold Template.unescapePart at h
  split at h
  · cases h
    exact hQ _ rfl id (by simp [kids])
  · cases h
  · cases h
    exact hpart

/-- A string literal is a part of it, or empty, or an output of its parts. -/
theorem Inherits.closeString {Q' : Node Owner → Prop} (hQ : Inherits Q) (hmono : ∀ n, Q n → Q' n)
    {pos : Pos} (houtput : ∀ parts, (∀ part ∈ parts, Q part) → Q' (.output pos parts))
    {parts : List (Node Owner)} (hparts : ∀ part ∈ parts, Q part) {n : Node Owner}
    (h : Template.closeString pos parts = .ok n) : Q' n := by
  obtain ⟨closed, hclosed, h⟩ := bind_eq_ok.mp h
  have hall : ∀ part ∈ closed, Q part := by
    intro part hpart
    obtain ⟨before, hbefore, heq⟩ := mem_of_mapM_eq_ok hclosed part hpart
    exact hQ.unescapePart (hparts before hbefore) heq
  split at h
  · cases h
    exact hmono _ (hQ _ rfl id (by simp [kids]))
  · cases h
    exact hmono _ (hall _ (List.mem_singleton_self _))
  · cases h
    exact houtput _ hall

end Read

end Node

/-! ### Raw templates -/

theorem ofString_raw (locate : Nat → Pos) (level offset : Nat) (body : List Char)
    (n : Node Owner) (h : ofString locate level offset body = .ok n) : n.Raw := by
  induction level generalizing offset body n with
  | zero =>
    cases h
    exact Node.raw_leaf rfl rfl
  | succ level ih =>
    rw [ofString] at h
    obtain ⟨parts, hparts, h⟩ := bind_eq_ok.mp h
    have hraw := Node.inherits_raw.ofPieces (fun s _ => ih s.offset s.chars) hparts
    exact Node.inherits_raw.closeString (fun _ h => h)
      (fun _ hall => Node.raw_iff.mpr ⟨rfl, hall⟩) hraw h

/-- **Reading gives raw trees.** -/
theorem parse_raw {text : String} {start : Pos} {n : Node Owner}
    (h : parse text start = .ok n) : n.Raw := by
  obtain ⟨parts, hparts, h⟩ := bind_eq_ok.mp h
  cases h
  refine Node.raw_iff.mpr ⟨rfl, Node.inherits_raw.ofPieces (fun s _ => ?_) hparts⟩
  exact ofString_raw _ _ s.offset s.chars

end Interpolation.Template
