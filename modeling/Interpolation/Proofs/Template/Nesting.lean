/-
How deep templates are nested.

* `Stretch.literals_of_isBody` — no expression inside a string literal has a string literal in
  it;
* `wellFounded_literals` — going on to string literals comes to an end;
* `ReadsStrings`, `parse_of_readsStrings` — there is one way to read string literals where
  what a string literal is read as follows from what those inside it are, and it is the one
  by which templates are read;
* `parse_recursion` — reading a template goes on to string literals strictly inside it, whose
  outputs are the only ones below the root.

Design notes: inside a string literal a quote stands behind a backslash, since the literal
would end at it otherwise.  Outside of string literals no token has a backslash, so the first
quote of an expression never stands behind one, and an expression in a string literal has no
quote at all.  The bound on the nesting that string literals are read with is not what keeps
the nesting flat, and any bound that is large enough reads the same.
-/
import Interpolation.Proofs.Template.Quoting
import Interpolation.Proofs.Template.Raw

namespace Interpolation.Template

/-! ### String literals inside string literals -/

/-- In the body of a string literal a quote stands behind a backslash. -/
theorem IsBody.slash_of_quote {a b : List Char} (h : IsBody (a ++ '"' :: b)) :
    a.getLast? = some '\\' := by
  generalize hbody : a ++ '"' :: b = body at h
  induction h generalizing a with
  | nil => simp at hbody
  | @escaped c cs hc _ ih =>
    match a, hbody with
    | [_], rfl => rfl
    | _ :: second :: more, hbody =>
      obtain ⟨-, hrest⟩ := List.cons.inj hbody
      have hlast := ih (List.cons.inj hrest).2
      rw [List.getLast?_cons, List.getLast?_cons, hlast]
      rfl
  | plain hquote _ _ ih =>
    match a, hbody with
    | [], hbody => exact absurd (List.cons.inj hbody).1.symm hquote
    | first :: more, hbody =>
      have hlast := ih (List.cons.inj hbody).2
      rw [List.getLast?_cons, hlast]
      rfl

/-- **In the body of a string literal no expression has a string literal in it.** -/
theorem Stretch.literals_of_isBody {s : Stretch} (h : IsBody s.chars) : s.literals = [] := by
  refine List.eq_nil_iff_forall_not_mem.mpr fun inner hinner => ?_
  obtain ⟨piece, hpiece, hinner⟩ := List.mem_flatMap.mp hinner
  obtain ⟨place, source, p, rfl, hread, hinner⟩ := Piece.mem_literals hinner
  obtain ⟨_, hcut, -⟩ := readPhrase_eq_ok_iff.mp hread
  obtain ⟨-, first, last, hsource, -⟩ := between_quotes hread hinner
  obtain ⟨before, after, hchars, -⟩ := Piece.between_braces hpiece
  dsimp only at hsource hchars
  have hmem : '"' ∈ source := by simp [hsource]
  obtain ⟨a, b, rfl, hfirst⟩ := List.eq_append_cons_of_mem hmem
  -- in the body the first quote of the expression stands behind a backslash
  have hbody : s.chars = (before ++ '\x7b' :: a) ++ '"' :: (b ++ '\x7d' :: after) := by
    simp [hchars]
  rw [hbody] at h
  have hlast := h.slash_of_quote
  rw [List.getLast?_append_of_ne_nil _ (List.cons_ne_nil _ _)] at hlast
  obtain ⟨front, hfront⟩ := List.getLast?_eq_some_iff.mp hlast
  cases front with
  | nil => cases hfront
  | cons _ front =>
    obtain rfl : a = front ++ ['\\'] := (List.cons.inj hfront).2
    -- and the backslash stands behind a quote, which would be before the first one
    rw [List.append_assoc] at hcut
    exact hfirst (List.mem_append_left _ hcut.quote_mem_of_slash)

theorem Stretch.literals_of_mem_literals {outer inner : Stretch} (h : inner ∈ outer.literals) :
    inner.literals = [] :=
  literals_of_isBody (inside_of_mem_literals h).1

/-! ### Going on to string literals -/

/-- A string literal is shorter than the template around it. -/
theorem length_literal_lt {offset : Nat} {chars : List Char} {s : Stretch}
    (h : s ∈ (Piece.split offset chars).flatMap Piece.literals) :
    s.chars.length < chars.length :=
  (@Stretch.inside_of_mem_literals ⟨offset, chars⟩ s h).2.length_lt

theorem wellFounded_literals : WellFounded fun inner outer : Stretch => inner ∈ outer.literals :=
  Subrelation.wf length_literal_lt (measure fun s : Stretch => s.chars.length).wf

variable {Owner : Type} {locate : Nat → Pos}
  {string string' : Nat → List Char → Except ParseFailure (Node Owner)}

/-- A way to read string literals: the body is read as a template, in which string literals are
read in the same way. -/
def ReadsStrings (locate : Nat → Pos)
    (string : Nat → List Char → Except ParseFailure (Node Owner)) : Prop :=
  ∀ offset body, string offset body = do
    let parts ← ofPieces locate string (Piece.split offset body)
    closeString (locate offset) parts

/-- **String literals can be read in one way only.** -/
theorem ReadsStrings.unique (h : ReadsStrings locate string) (h' : ReadsStrings locate string') :
    string = string' := by
  have hall : ∀ s : Stretch, string s.offset s.chars = string' s.offset s.chars := by
    intro s
    -- the two readings agree on a template if they do on the string literals in it
    induction s using wellFounded_literals.induction with
    | _ s ih => rw [h, h', ofPieces_congr ih]
  funext offset body
  exact hall ⟨offset, body⟩

/-- A bound on the nesting makes no difference if it is no less than the length. -/
theorem ofString_eq_of_length_le {level level' offset : Nat} {body : List Char}
    (hlevel : body.length ≤ level) (hlevel' : body.length ≤ level') :
    (ofString locate level offset body : Except ParseFailure (Node Owner)) =
      ofString locate level' offset body := by
  induction level generalizing level' offset body with
  | zero =>
    obtain rfl := List.length_eq_zero_iff.mp (Nat.le_zero.mp hlevel)
    rw [ofString_nil, ofString_nil]
  | succ level ih =>
    cases level' with
    | zero =>
      obtain rfl := List.length_eq_zero_iff.mp (Nat.le_zero.mp hlevel')
      rw [ofString_nil, ofString_nil]
    | succ level' =>
      rw [ofString, ofString, ofPieces_congr fun s hs => ?_]
      have hlt := length_literal_lt hs
      exact ih (by omega) (by omega)

/-- **Reading string literals with the length of the body as the bound is a way to read
them**, so the bound is never what the nesting comes up against. -/
theorem readsStrings_ofString (locate : Nat → Pos) :
    ReadsStrings locate fun offset body =>
      (ofString locate body.length offset body : Except ParseFailure (Node Owner)) := by
  intro offset body
  cases body with
  | nil =>
    rw [Piece.split_nil]
    exact ofString_nil 0 offset
  | cons c cs =>
    show ofString locate (cs.length + 1) offset (c :: cs) = _
    rw [ofString, ofPieces_congr fun s hs => ?_]
    have hlt := length_literal_lt hs
    rw [List.length_cons] at hlt
    exact ofString_eq_of_length_le (by omega) le_rfl

/-- **A template is read by the one way there is to read string literals.** -/
theorem parse_of_readsStrings {text : String} {start : Pos}
    (h : ReadsStrings (start.locate text.toList) string) :
    parse text start = do
      let parts ← ofPieces (start.locate text.toList) string (Piece.split 0 text.toList)
      return .output start parts := by
  obtain rfl := h.unique (readsStrings_ofString _)
  rw [parse, ofPieces_congr fun s hs => ?_]
  exact ofString_eq_of_length_le (length_literal_lt hs).le le_rfl

/-! ### Outputs -/

namespace Node

/-- The nodes below a node. -/
def descendants (n : Node Owner) : List (Node Owner) :=
  n.kids.flatMap subtrees

/-- There is no output in a tree. -/
def OutputFree (n : Node Owner) : Prop :=
  ∀ m ∈ n.subtrees, ¬ m.IsOutput

/-- There is no output below an output of a tree. -/
def OutputsFlat (n : Node Owner) : Prop :=
  ∀ m ∈ n.subtrees, m.IsOutput → ∀ k ∈ m.descendants, ¬ k.IsOutput

theorem inherits_outputFree : Inherits (OutputFree : Node Owner → Prop) :=
  fun _ _ hn hkids => forall_mem_subtrees.mpr ⟨hn, hkids⟩

theorem inherits_outputsFlat : Inherits (OutputsFlat : Node Owner → Prop) :=
  fun _ _ hn hkids => forall_mem_subtrees.mpr ⟨fun houtput => absurd houtput hn, hkids⟩

theorem OutputFree.outputsFlat {n : Node Owner} (h : n.OutputFree) : n.OutputsFlat :=
  fun m hm houtput => absurd houtput (h m hm)

theorem forall_mem_descendants {P : Node Owner → Prop} {n : Node Owner} :
    (∀ m ∈ n.descendants, P m) ↔ ∀ k ∈ n.kids, ∀ m ∈ k.subtrees, P m :=
  List.forall_mem_flatMap

theorem outputsFlat_output {pos : Pos} {parts : List (Node Owner)}
    (h : ∀ part ∈ parts, part.OutputFree) : (output pos parts).OutputsFlat :=
  forall_mem_subtrees.mpr
    ⟨fun _ => forall_mem_descendants.mpr h, fun part hpart => (h part hpart).outputsFlat⟩

end Node

/-- **What a string literal is read as has no output below an output.** -/
theorem ofString_outputsFlat {level : Nat} {s : Stretch} (hbody : IsBody s.chars)
    {n : Node Owner} (h : ofString locate level s.offset s.chars = .ok n) : n.OutputsFlat := by
  cases level with
  | zero =>
    cases h
    exact Node.inherits_outputsFlat _ rfl id (by simp [Node.kids])
  | succ level =>
    obtain ⟨parts, hparts, h⟩ := bind_eq_ok.mp h
    -- no string literal is inside that could be read as an output
    have hnone : ∀ inner ∈ s.literals, ∀ n : Node Owner,
        ofString locate level inner.offset inner.chars = .ok n → n.OutputFree := by
      intro inner hinner
      rw [Stretch.literals_of_isBody hbody] at hinner
      cases hinner
    have hfree := Node.inherits_outputFree.ofPieces hnone hparts
    exact Node.inherits_outputFree.closeString (fun _ => Node.OutputFree.outputsFlat)
      (fun _ => Node.outputsFlat_output) hfree h

/-- **Reading a template goes on to string literals strictly inside it, and from these to no
others**, and what it comes to depends on nothing else that is asked about.  So it comes to an
end: string literals can be read in one way only if each is read from those inside it, and a
template is read that way.  In the tree that is read no output below the root has another one
below it. -/
theorem parse_recursion (text : String) (start : Pos) :
    (∀ outer : Stretch, ∀ inner ∈ outer.literals,
      inner.Inside outer ∧ inner.literals = []) ∧
    (∀ (outer : Stretch) (locate : Nat → Pos)
      (string string' : Nat → List Char → Except ParseFailure (Node Owner)),
      (∀ inner ∈ outer.literals,
        string inner.offset inner.chars = string' inner.offset inner.chars) →
      ofPieces locate string (Piece.split outer.offset outer.chars) =
        ofPieces locate string' (Piece.split outer.offset outer.chars)) ∧
    (WellFounded fun inner outer : Stretch => inner ∈ outer.literals) ∧
    (∃ string : Nat → List Char → Except ParseFailure (Node Owner),
      (∀ other, ReadsStrings (start.locate text.toList) other ↔ other = string) ∧
      parse text start = do
        let parts ← ofPieces (start.locate text.toList) string (Piece.split 0 text.toList)
        return .output start parts) ∧
    ∀ n : Node Owner, parse text start = .ok n →
      ∀ m ∈ n.descendants, m.IsOutput → ∀ k ∈ m.descendants, ¬ k.IsOutput := by
  refine ⟨fun outer inner hinner => ?_, fun outer locate string string' h => ofPieces_congr h,
    wellFounded_literals, ?_, fun n hn => ?_⟩
  · exact ⟨(Stretch.inside_of_mem_literals hinner).2, Stretch.literals_of_mem_literals hinner⟩
  · have hreads : ReadsStrings (start.locate text.toList) fun offset body =>
        (ofString (start.locate text.toList) body.length offset body :
          Except ParseFailure (Node Owner)) := readsStrings_ofString _
    refine ⟨_, fun other => ⟨fun hother => hother.unique hreads, ?_⟩, parse_of_readsStrings hreads⟩
    rintro rfl
    exact hreads
  · obtain ⟨parts, hparts, hn⟩ := bind_eq_ok.mp hn
    cases hn
    refine Node.forall_mem_descendants.mpr
      (Node.inherits_outputsFlat.ofPieces (fun s hs m hm => ?_) hparts)
    exact ofString_outputsFlat (@Stretch.inside_of_mem_literals ⟨0, text.toList⟩ s hs).1 hm

/-- A string literal with an interpolation in it. -/
private def nestedText : String := "$\x7b\"a$\x7bx\x7d\"\x7d"

private def nestedTree : Node Empty :=
  .output ⟨"", 1, 1⟩ [.output ⟨"", 1, 4⟩ [
    .literal ⟨"", 1, 4⟩ (.text "a"), .access none ⟨"", 1, 7⟩ "x"]]

theorem parse_recursion_nestedText :
    (Stretch.mk 0 nestedText.toList).literals = [⟨3, "a$\x7bx\x7d".toList⟩] ∧
      parse nestedText ⟨"", 1, 1⟩ = .ok nestedTree ∧
      ∃ m ∈ nestedTree.descendants, m.IsOutput ∧ ∀ k ∈ m.descendants, ¬ k.IsOutput := by
  have hparse : parse nestedText ⟨"", 1, 1⟩ = .ok nestedTree := by with_unfolding_all rfl
  obtain ⟨-, -, -, -, hflat⟩ := @parse_recursion Empty nestedText ⟨"", 1, 1⟩
  refine ⟨by decide +kernel, hparse, _, List.mem_cons_self, trivial, ?_⟩
  exact hflat nestedTree hparse _ List.mem_cons_self trivial

end Interpolation.Template
