/-
Trees are laid out in source order.

* `Pos.locate_before` — what is further on in a text has a later position;
* `Cut.along`, `Piece.split_along` — the tokens of an expression lie one after the other, and
  so do the pieces of a template;
* `Derivation.laid`, `ofString_laid`, `parse_laid` — so do the nodes of a tree, the kids of
  each node inside it;
* `Laid.inSourceOrder` — in such a tree siblings have increasing positions, and no node comes
  before its parent.

Design notes: a node does not know where it ends, so a layout (`Laid`) says only that there
is some place to end at.  It speaks of offsets, since these tell what is read to the left of
what.  All that is read from a row of tokens lies between the ends of the row, and that is
what goes from the phrases of an expression to the whole template, through the string
literals, whose bodies are templates themselves.
-/
import Interpolation.Proofs.Template.Rendering

namespace Interpolation.Template

/-! ### Positions in order -/

/-- There is something between two places in a text. -/
theorem exists_take_eq {α : Type} {as : List α} {i j : Nat} (hij : i < j) (hj : j ≤ as.length) :
    ∃ between, between ≠ [] ∧ as.take j = as.take i ++ between := by
  obtain ⟨d, rfl⟩ := Nat.exists_eq_add_of_lt hij
  refine ⟨(as.drop i).take (d + 1), List.ne_nil_of_length_pos ?_, ?_⟩
  · rw [List.length_take, List.length_drop]
    omega
  · rw [Nat.add_assoc, List.take_add]

/-- A position comes before another one: on an earlier line, or on the same line in an
earlier column. -/
def Pos.Before (p q : Pos) : Prop :=
  p.line < q.line ∨ p.line = q.line ∧ p.column < q.column

namespace Pos

theorem Before.asymm {p q : Pos} (h : p.Before q) : ¬ q.Before p := by
  unfold Before at *
  omega

theorem Before.irrefl (p : Pos) : ¬ p.Before p := by
  unfold Before
  omega

/-- Every character leads on to a later position. -/
theorem before_after {cs : List Char} (hne : cs ≠ []) (p : Pos) : p.Before (p.after cs) := by
  unfold Before
  rw [after_line]
  by_cases hfeed : '\n' ∈ cs
  · have hpos := List.count_pos_iff.mpr hfeed
    omega
  · obtain ⟨c, rest, rfl⟩ := List.exists_cons_of_ne_nil hne
    have hsize := c.utf8Size_pos
    rw [after_column hfeed, List.count_eq_zero.mpr hfeed, Utf8.byteLength_cons]
    omega

/-- **What is further on in a text has a later position.** -/
theorem locate_before (start : Pos) {cs : List Char} {i j : Nat} (hij : i < j)
    (hj : j ≤ cs.length) : (start.locate cs i).Before (start.locate cs j) := by
  obtain ⟨between, hne, hbetween⟩ := exists_take_eq hij hj
  rw [locate, locate, hbetween, after_append]
  exact before_after hne _

end Pos

/-! ### One after the other -/

section Along

variable {α β : Type} {Extends : Nat → Nat → α → Prop} {Extends' : Nat → Nat → β → Prop}
variable {lo hi : Nat} {a : α} {as bs : List α}

/-- The items extend one after the other between two offsets, perhaps with gaps. -/
inductive Along (Extends : Nat → Nat → α → Prop) : Nat → Nat → List α → Prop
  | nil {lo hi : Nat} (h : lo ≤ hi) : Along Extends lo hi []
  | cons {lo start stop hi : Nat} {a : α} {rest : List α} (hlo : lo ≤ start)
    (hlt : start < stop) (ha : Extends start stop a) (hrest : Along Extends stop hi rest) :
    Along Extends lo hi (a :: rest)

namespace Along

theorem le (h : Along Extends lo hi as) : lo ≤ hi := by
  induction h with
  | nil h => exact h
  | cons hlo hlt _ _ ih => omega

theorem lt (h : Along Extends lo hi (a :: as)) : lo < hi := by
  cases h with
  | cons hlo hlt _ hrest =>
    have hle := hrest.le
    omega

theorem mono_left (h : Along Extends lo hi as) {lo' : Nat} (hle : lo' ≤ lo) :
    Along Extends lo' hi as := by
  cases h with
  | nil h => exact .nil (hle.trans h)
  | cons hlo hlt ha hrest => exact .cons (hle.trans hlo) hlt ha hrest

theorem mono_right (h : Along Extends lo hi as) {hi' : Nat} (hle : hi ≤ hi') :
    Along Extends lo hi' as := by
  induction h with
  | nil h => exact .nil (h.trans hle)
  | cons hlo hlt ha _ ih => exact .cons hlo hlt ha (ih hle)

theorem tail (h : Along Extends lo hi (a :: as)) : Along Extends lo hi as := by
  cases h with
  | cons hlo hlt _ hrest => exact hrest.mono_left (by omega)

theorem append {mid : Nat} (ha : Along Extends lo mid as) (hb : Along Extends mid hi bs) :
    Along Extends lo hi (as ++ bs) := by
  induction ha with
  | nil h => exact hb.mono_left h
  | cons hlo hlt ha _ ih => exact .cons hlo hlt ha (ih hb)

theorem split (h : Along Extends lo hi (as ++ bs)) :
    ∃ mid, Along Extends lo mid as ∧ Along Extends mid hi bs := by
  induction as generalizing lo with
  | nil => exact ⟨lo, .nil le_rfl, h⟩
  | cons a as ih =>
    cases h with
    | cons hlo hlt ha hrest =>
      obtain ⟨mid, hmid, hb⟩ := ih hrest
      exact ⟨mid, .cons hlo hlt ha hmid, hb⟩

theorem extends_of_mem (h : Along Extends lo hi as) :
    ∀ a ∈ as, ∃ start stop, lo ≤ start ∧ start < stop ∧ stop ≤ hi ∧ Extends start stop a := by
  induction h with
  | nil => exact fun a ha => nomatch ha
  | @cons lo start stop hi a rest hlo hlt ha hrest ih =>
    refine List.forall_mem_cons.mpr ⟨⟨start, stop, hlo, hlt, hrest.le, ha⟩, fun b hb => ?_⟩
    obtain ⟨start', stop', hstart', hlt', hstop', hb⟩ := ih b hb
    exact ⟨start', stop', by omega, hlt', hstop', hb⟩

/-- What lies along offsets is ordered as the offsets are. -/
theorem pairwise (h : Along Extends lo hi as) {R : α → α → Prop}
    (hR : ∀ {i i' j j' a b}, Extends i i' a → Extends j j' b → i < j → j < hi → R a b) :
    as.Pairwise R := by
  induction h with
  | nil => exact .nil
  | cons hlo hlt ha hrest ih =>
    refine .cons (fun b hb => ?_) (ih hR)
    obtain ⟨start, stop, hstart, hlt', hstop, hb⟩ := hrest.extends_of_mem b hb
    exact hR ha hb (by omega) (by omega)

/-- What replaces an item lies along the offsets of the item. -/
theorem flatMap (h : Along Extends lo hi as) {f : α → List β}
    (hf : ∀ a ∈ as, ∀ start stop, start < stop → Extends start stop a →
      Along Extends' start stop (f a)) : Along Extends' lo hi (as.flatMap f) := by
  induction h with
  | nil h => exact .nil h
  | cons hlo hlt ha _ ih =>
    obtain ⟨hfirst, hothers⟩ := List.forall_mem_cons.mp hf
    rw [List.flatMap_cons]
    exact ((hfirst _ _ hlt ha).mono_left hlo).append (ih hothers)

theorem map (h : Along Extends lo hi as) {f : α → β}
    (hf : ∀ a ∈ as, ∀ start stop, Extends start stop a → Extends' start stop (f a)) :
    Along Extends' lo hi (as.map f) := by
  rw [List.map_eq_flatMap]
  exact h.flatMap fun a ha start stop hlt hext =>
    .cons le_rfl hlt (hf a ha start stop hext) (.nil le_rfl)

end Along

end Along

/-! ### Tokens and pieces -/

/-- Where a token is, as long as it is written. -/
def Lexeme.Extends (start stop : Nat) (l : Lexeme) : Prop :=
  l.offset = start ∧ stop = start + l.token.text.length

/-- **The tokens of an expression lie one after the other.** -/
theorem Cut.along {offset : Nat} {cs : List Char} {lexemes : List Lexeme}
    (h : Cut offset cs lexemes) : Along Lexeme.Extends offset (offset + cs.length) lexemes := by
  induction h with
  | done => exact .nil le_rfl
  | space _ _ ih =>
    refine (ih.mono_left (by omega)).mono_right ?_
    rw [List.length_cons]
    omega
  | token hfirst _ ih =>
    obtain ⟨c, cs, htext, -⟩ := hfirst.spelled.head_not_space
    refine .cons le_rfl ?_ ⟨rfl, rfl⟩ (ih.mono_right ?_)
    · rw [htext, List.length_cons]
      omega
    · rw [← hfirst.text_append, List.length_append]
      omega

/-- Where a piece of a template is, as far as can be told from it: literal text may be
longer than what it stands for. -/
def Piece.Extends (start stop : Nat) : Piece → Prop
  | .code offset source => offset = start ∧ stop = start + source.length + 1
  | .text offset _ | .unclosed offset => offset = start ∧ stop = start + 1

theorem Piece.addText_along {offset place hi : Nat} {pieces : List Piece}
    (h : Along Extends place hi pieces) (hplace : offset < place) (chars : List Char) :
    Along Extends offset hi (addText offset chars pieces) := by
  have hadd : Along Extends offset hi (.text offset chars :: pieces) :=
    .cons le_rfl (Nat.lt_succ_self offset) ⟨rfl, rfl⟩ (h.mono_left hplace)
  cases pieces with
  | nil => exact hadd
  | cons piece rest =>
    cases piece with
    | text other more =>
      exact .cons le_rfl (Nat.lt_succ_self offset) ⟨rfl, rfl⟩ (h.mono_left hplace).tail
    | code | unclosed => exact hadd

/-- **The pieces of a template lie one after the other.** -/
theorem Piece.split_along (offset : Nat) (cs : List Char) :
    Along Extends offset (offset + cs.length) (split offset cs) := by
  fun_induction split offset cs with
  | case1 offset => exact .nil le_rfl
  | case2 offset cs ih =>
    refine addText_along (ih.mono_right ?_) (by omega) _
    simp only [List.length_cons]
    omega
  | case3 offset cs hopen =>
    refine .cons le_rfl (Nat.lt_succ_self offset) ⟨rfl, rfl⟩ (.nil ?_)
    simp only [List.length_cons]
    omega
  | case4 offset cs source rest hopen ih =>
    refine .cons (Nat.le_add_right _ _) (by omega) ⟨rfl, rfl⟩ (ih.mono_right ?_)
    simp only [takeCode_close hopen, List.length_cons, List.length_append]
    omega
  | case5 offset c cs hescape hopen ih =>
    refine addText_along (ih.mono_right ?_) (by omega) _
    simp only [List.length_cons]
    omega

/-! ### Layouts of trees -/

variable {Owner : Type} {locate : Nat → Pos}

/-- A tree is laid out between two offsets: it starts at the first, and its kids are laid out
one after the other from there on. -/
inductive Laid (locate : Nat → Pos) : Nat → Nat → Node Owner → Prop
  | node {start stop : Nat} {n : Node Owner} (hpos : n.pos = locate start)
    (hkids : Along (Laid locate) start stop n.kids) : Laid locate start stop n

namespace Laid

variable {start stop : Nat} {n : Node Owner}

theorem pos_eq (h : Laid locate start stop n) : n.pos = locate start := by
  cases h with
  | node hpos _ => exact hpos

theorem kids (h : Laid locate start stop n) : Along (Laid locate) start stop n.kids := by
  cases h with
  | node _ hkids => exact hkids

end Laid

/-- A node is laid out where its kids are. -/
theorem Along.node {lo start hi : Nat} {n : Node Owner} (hpos : n.pos = locate start)
    (hlo : lo ≤ start) (hlt : start < hi) (hkids : Along (Laid locate) start hi n.kids) :
    Along (Laid locate) lo hi [n] :=
  .cons hlo hlt (.node hpos hkids) (.nil le_rfl)

theorem Along.leaf {lo start hi : Nat} {n : Node Owner} (hpos : n.pos = locate start)
    (hlo : lo ≤ start) (hlt : start < hi) (hkids : n.kids = []) :
    Along (Laid locate) lo hi [n] :=
  .node hpos hlo hlt (hkids ▸ .nil hlt.le)

/-! ### Expressions -/

theorem Derivation.yield_eq_cons {r : Rule} :
    (d : Derivation r) → ∃ l rest, d.yield = l :: rest ∧ l.offset = d.phrase.start
  | .tighter _ d => d.yield_eq_cons
  | .conditional condition .. => by
    obtain ⟨l, rest, hyield, hstart⟩ := condition.yield_eq_cons
    exact ⟨l, _, by rw [Derivation.yield, hyield, List.cons_append], hstart⟩
  | .binary _ _ left .. => by
    obtain ⟨l, rest, hyield, hstart⟩ := left.yield_eq_cons
    exact ⟨l, _, by rw [Derivation.yield, hyield, List.cons_append], hstart⟩
  | .index target .. => by
    obtain ⟨l, rest, hyield, hstart⟩ := target.yield_eq_cons
    exact ⟨l, _, by rw [Derivation.yield, hyield, List.cons_append], hstart⟩
  | .unary .. | .number .. | .bool .. | .quoted .. | .name .. | .callEmpty .. | .call ..
  | .group .. => ⟨_, _, rfl, rfl⟩

/-- What is derived lies along its tokens from the first of them on. -/
theorem Derivation.along_start {r : Rule} (d : Derivation r) {lo hi : Nat}
    (h : Along Lexeme.Extends lo hi d.yield) :
    lo ≤ d.phrase.start ∧ d.phrase.start < hi ∧
      Along Lexeme.Extends d.phrase.start hi d.yield := by
  obtain ⟨l, rest, hyield, hstart⟩ := d.yield_eq_cons
  rw [hyield] at h ⊢
  cases h with
  | cons hlo hlt hl hrest =>
    rw [← hstart, hl.1]
    have halong : Along Lexeme.Extends _ hi (l :: rest) := .cons le_rfl hlt hl hrest
    exact ⟨hlo, halong.lt, halong⟩

/-- A string literal is read as a tree that is laid out from the start of its body up to its
closing quote. -/
def LaysOut (locate : Nat → Pos)
    (string : Nat → List Char → Except ParseFailure (Node Owner)) : Prop :=
  ∀ offset body n, string offset body = .ok n →
    Along (Laid locate) offset (offset + body.length + 1) [n]

variable {string : Nat → List Char → Except ParseFailure (Node Owner)}

mutual

/-- **The nodes of an expression are laid out along its tokens.** -/
theorem Derivation.laid (hstring : LaysOut locate string) {r : Rule} :
    (d : Derivation r) → ∀ {lo hi : Nat}, Along Lexeme.Extends lo hi d.yield →
      ∀ {n : Node Owner}, Node.ofPhrase locate string d.phrase = .ok n →
        Along (Laid locate) lo hi [n]
  | .tighter _ d, lo, hi, h, n, hn => d.laid hstring h hn
  | .conditional condition question yes colon no, lo, hi, h, n, hn => by
    obtain ⟨hlo, hlt, htokens⟩ :=
      Derivation.along_start (.conditional condition question yes colon no) h
    obtain ⟨_, hcondition, hrest⟩ := htokens.split
    obtain ⟨_, hyes, hno⟩ := hrest.tail.split
    rw [Derivation.phrase, Node.ofPhrase] at hn
    obtain ⟨c, hc, hn⟩ := bind_eq_ok.mp hn
    obtain ⟨y, hy, hn⟩ := bind_eq_ok.mp hn
    obtain ⟨m, hm, hn⟩ := bind_eq_ok.mp hn
    cases hn
    exact .node rfl hlo hlt ((condition.laid hstring hcondition hc).append
      ((yes.laid hstring hyes hy).append (no.laid hstring hno.tail hm)))
  | .binary op hop left offset right, lo, hi, h, n, hn => by
    obtain ⟨hlo, hlt, htokens⟩ := Derivation.along_start (.binary op hop left offset right) h
    obtain ⟨_, hleft, hright⟩ := htokens.split
    rw [Derivation.phrase, Node.ofPhrase] at hn
    obtain ⟨l, hl, hn⟩ := bind_eq_ok.mp hn
    obtain ⟨m, hm, hn⟩ := bind_eq_ok.mp hn
    cases hn
    exact .node rfl hlo hlt
      ((left.laid hstring hleft hl).append (right.laid hstring hright.tail hm))
  | .unary op offset operand, lo, hi, h, n, hn => by
    obtain ⟨hlo, hlt, htokens⟩ := Derivation.along_start (.unary op offset operand) h
    rw [Derivation.phrase, Node.ofPhrase] at hn
    obtain ⟨m, hm, hn⟩ := bind_eq_ok.mp hn
    cases hn
    exact .node rfl hlo hlt (operand.laid hstring htokens.tail hm)
  | .index target openBracket key closeBracket, lo, hi, h, n, hn => by
    obtain ⟨hlo, hlt, htokens⟩ :=
      Derivation.along_start (.index target openBracket key closeBracket) h
    obtain ⟨_, htarget, hrest⟩ := htokens.split
    obtain ⟨_, hkey, hclose⟩ := hrest.tail.split
    rw [Derivation.phrase, Node.ofPhrase] at hn
    obtain ⟨t, ht, hn⟩ := bind_eq_ok.mp hn
    obtain ⟨k, hk, hn⟩ := bind_eq_ok.mp hn
    cases hn
    exact .node rfl hlo hlt ((target.laid hstring htarget ht).append
      ((key.laid hstring hkey hk).mono_right hclose.le))
  | .number offset digits, lo, hi, h, n, hn => by
    obtain ⟨hlo, hlt, -⟩ := Derivation.along_start (.number offset digits) h
    rw [Derivation.phrase, Node.ofPhrase, Node.ofNumber] at hn
    split at hn
    · cases hn
      exact .leaf rfl hlo hlt rfl
    · cases hn
      exact .leaf rfl hlo hlt rfl
    · cases hn
  | .bool offset b, lo, hi, h, n, hn => by
    obtain ⟨hlo, hlt, -⟩ := Derivation.along_start (.bool offset b) h
    rw [Derivation.phrase, Node.ofPhrase] at hn
    cases hn
    exact .leaf rfl hlo hlt rfl
  | .quoted offset body, lo, hi, h, n, hn => by
    rw [Derivation.phrase, Node.ofPhrase] at hn
    cases h with
    | cons hlo hlt hl hrest =>
      -- the body stands between the two quotes of the token
      obtain ⟨rfl, rfl⟩ := hl
      have hle := hrest.le
      simp only [Token.text, List.length_append, List.length_cons, List.length_nil] at hle
      exact ((hstring _ _ _ hn).mono_left (Nat.le_succ_of_le hlo)).mono_right (by omega)
  | .name offset text, lo, hi, h, n, hn => by
    obtain ⟨hlo, hlt, -⟩ := Derivation.along_start (.name offset text) h
    rw [Derivation.phrase, Node.ofPhrase] at hn
    cases hn
    exact .leaf rfl hlo hlt rfl
  | .callEmpty offset function openParen closeParen, lo, hi, h, n, hn => by
    obtain ⟨hlo, hlt, -⟩ :=
      Derivation.along_start (.callEmpty offset function openParen closeParen) h
    rw [Derivation.phrase, Node.ofPhrase, Node.ofArguments] at hn
    cases hn
    exact .leaf rfl hlo hlt rfl
  | .call offset function openParen arguments closeParen, lo, hi, h, n, hn => by
    obtain ⟨hlo, hlt, htokens⟩ :=
      Derivation.along_start (.call offset function openParen arguments closeParen) h
    obtain ⟨_, harguments, hclose⟩ := htokens.tail.tail.split
    rw [Derivation.phrase, Node.ofPhrase] at hn
    obtain ⟨nodes, hnodes, hn⟩ := bind_eq_ok.mp hn
    cases hn
    exact .node rfl hlo hlt
      ((arguments.laid hstring harguments hnodes).mono_right hclose.le)
  | .group openParen inner closeParen, lo, hi, h, n, hn => by
    obtain ⟨_, hinner, hclose⟩ := h.tail.split
    rw [Derivation.phrase, Node.ofPhrase_group] at hn
    exact (inner.laid hstring hinner hn).mono_right hclose.le

theorem Arguments.laid (hstring : LaysOut locate string) :
    (arguments : Arguments) → ∀ {lo hi : Nat}, Along Lexeme.Extends lo hi arguments.yield →
      ∀ {nodes : List (Node Owner)},
        Node.ofArguments locate string arguments.phrases = .ok nodes →
          Along (Laid locate) lo hi nodes
  | .one argument, lo, hi, h, nodes, hnodes => by
    rw [Arguments.phrases, Node.ofArguments, Node.ofArguments] at hnodes
    obtain ⟨n, hn, hnodes⟩ := bind_eq_ok.mp hnodes
    cases hnodes
    exact argument.laid hstring h hn
  | .more init comma last, lo, hi, h, nodes, hnodes => by
    obtain ⟨_, hinit, hlast⟩ := h.split
    rw [Arguments.phrases, Node.ofArguments_concat] at hnodes
    obtain ⟨first, hfirst, hnodes⟩ := bind_eq_ok.mp hnodes
    obtain ⟨n, hn, hnodes⟩ := bind_eq_ok.mp hnodes
    cases hnodes
    exact (init.laid hstring hinit hfirst).append (last.laid hstring hlast.tail hn)

end

theorem expression_laid (hstring : LaysOut locate string) {offset : Nat} {source : List Char}
    {n : Node Owner} (h : expression locate string offset source = .ok n) :
    Along (Laid locate) offset (offset + source.length) [n] := by
  unfold expression at h
  split at h
  · cases h
  · split at h
    · cases h
    · next p hread =>
      obtain ⟨_, hcut, derivation, rfl, rfl⟩ := readPhrase_eq_ok_iff.mp hread
      exact derivation.laid hstring hcut.along h

/-! ### Templates -/

theorem ofPiece_laid (hstring : LaysOut locate string) {start stop : Nat} {piece : Piece}
    (hpiece : piece.Extends start stop) {n : Node Owner}
    (h : ofPiece locate string piece = .ok n) : Along (Laid locate) start stop [n] := by
  cases piece with
  | text offset chars =>
    obtain ⟨rfl, rfl⟩ := hpiece
    cases h
    exact .leaf rfl le_rfl (Nat.lt_succ_self offset) rfl
  | code offset source =>
    obtain ⟨rfl, rfl⟩ := hpiece
    exact (expression_laid hstring h).mono_right (Nat.le_succ _)
  | unclosed offset => cases h

/-- **The parts of a template are laid out along its pieces.** -/
theorem ofPieces_laid (hstring : LaysOut locate string) {lo hi : Nat} {pieces : List Piece}
    (hpieces : Along Piece.Extends lo hi pieces) {nodes : List (Node Owner)}
    (h : ofPieces locate string pieces = .ok nodes) : Along (Laid locate) lo hi nodes := by
  induction hpieces generalizing nodes with
  | nil hle =>
    cases h
    exact .nil hle
  | cons hlo _ hpiece _ ih =>
    obtain ⟨n, hn, h⟩ := bind_eq_ok.mp h
    obtain ⟨others, hothers, h⟩ := bind_eq_ok.mp h
    cases h
    exact ((ofPiece_laid hstring hpiece hn).mono_left hlo).append (ih hothers)

theorem unescapePart_laid {start stop : Nat} {part closed : Node Owner}
    (h : Laid locate start stop part) (hclosed : unescapePart part = .ok closed) :
    Laid locate start stop closed := by
  unfold unescapePart at hclosed
  split at hclosed
  · cases hclosed
    exact .node h.pos_eq h.kids
  · cases hclosed
  · cases hclosed
    exact h

theorem mapM_unescapePart_laid {lo hi : Nat} {parts closed : List (Node Owner)}
    (h : Along (Laid locate) lo hi parts) (hclosed : parts.mapM unescapePart = .ok closed) :
    Along (Laid locate) lo hi closed := by
  induction h generalizing closed with
  | nil hle =>
    cases hclosed
    exact .nil hle
  | cons hlo hlt hpart _ ih =>
    rw [List.mapM_cons] at hclosed
    obtain ⟨n, hn, hclosed⟩ := bind_eq_ok.mp hclosed
    obtain ⟨others, hothers, hclosed⟩ := bind_eq_ok.mp hclosed
    cases hclosed
    exact .cons hlo hlt (unescapePart_laid hpart hn) (ih hothers)

theorem closeString_laid {offset hi : Nat} (hlt : offset < hi) {parts : List (Node Owner)}
    (hparts : Along (Laid locate) offset hi parts) {n : Node Owner}
    (h : closeString (locate offset) parts = .ok n) : Along (Laid locate) offset hi [n] := by
  obtain ⟨closed, hclosed, h⟩ := bind_eq_ok.mp h
  have hlaid := mapM_unescapePart_laid hparts hclosed
  split at h
  · cases h
    exact .leaf rfl le_rfl hlt rfl
  · cases h
    exact hlaid
  · cases h
    exact .node rfl le_rfl hlt hlaid

/-- **Whatever the nesting, a string literal is laid out inside its quotes.** -/
theorem ofString_laid (locate : Nat → Pos) (level : Nat) :
    LaysOut locate (ofString locate level : _ → _ → Except ParseFailure (Node Owner)) := by
  induction level with
  | zero =>
    intro offset body n h
    cases h
    exact .leaf rfl le_rfl (by omega) rfl
  | succ level ih =>
    intro offset body n h
    obtain ⟨parts, hparts, h⟩ := bind_eq_ok.mp h
    have hlaid := ofPieces_laid ih (Piece.split_along offset body) hparts
    exact closeString_laid (by omega) (hlaid.mono_right (Nat.le_succ _)) h

/-- **The tree of a template is laid out along its text.** -/
theorem parse_laid {text : String} {start : Pos} {n : Node Owner} (h : parse text start = .ok n) :
    Laid (start.locate text.toList) 0 text.toList.length n := by
  obtain ⟨nodes, hnodes, rfl⟩ := parse_eq_ok_iff.mp h
  have hpieces := Piece.split_along 0 text.toList
  rw [Nat.zero_add] at hpieces
  exact .node rfl (ofPieces_laid (ofString_laid _ _) hpieces hnodes)

/-! ### Order -/

/-- The kids of every node have increasing positions, and none comes before the node. -/
def Node.InSourceOrder (n : Node Owner) : Prop :=
  ∀ m ∈ n.subtrees, (m.kids.map Node.pos).Pairwise Pos.Before ∧
    ∀ k ∈ m.kids, ¬ k.pos.Before m.pos

/-- **A tree that is laid out along a text is in source order.** -/
theorem Laid.inSourceOrder {origin : Pos} {cs : List Char} {start stop : Nat} {n : Node Owner}
    (h : Laid (origin.locate cs) start stop n) (hstop : stop ≤ cs.length) : n.InSourceOrder := by
  induction n using Node.kids_induction generalizing start stop with
  | node n ih =>
    refine Node.forall_mem_subtrees.mpr ⟨⟨?_, fun k hk => ?_⟩, fun k hk => ?_⟩
    · rw [List.pairwise_map]
      refine h.kids.pairwise fun ha hb hlt hhi => ?_
      rw [ha.pos_eq, hb.pos_eq]
      exact origin.locate_before hlt (by omega)
    · obtain ⟨place, _, hle, hlt, hend, hlaid⟩ := h.kids.extends_of_mem k hk
      rw [hlaid.pos_eq, h.pos_eq]
      rcases Nat.eq_or_lt_of_le hle with rfl | hbehind
      · exact Pos.Before.irrefl _
      · exact (origin.locate_before hbehind (by omega)).asymm
    · obtain ⟨_, _, _, _, hend, hlaid⟩ := h.kids.extends_of_mem k hk
      exact ih k hk hlaid (hend.trans hstop)

end Interpolation.Template
