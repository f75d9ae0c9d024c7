/-
Templates as rows of parts.

* `split_render` — what parts are rendered as is cut into these parts again;
* `exists_row` — whatever can be cut into closed pieces is the rendering of parts;
* `parse_render` — splitting a template and rendering its parts undo each other.

Design notes: a part says what is meant and a piece what is found at an offset.  Between
text and code there is nothing to see but the characters themselves, so not every list of
parts can be told from its rendering: two texts in a row become one, and a dollar sign at
the end of a text would make the brace behind it stand for itself.  `Row` rules out both.
-/
import Interpolation.Proofs.Template.Relocation

namespace Interpolation.Template

/-- A part of a template: text, or the source of an expression. -/
inductive Part where
  | text (chars : List Char)
  | code (source : List Char)
  deriving DecidableEq, Repr

/-- Text with a second dollar sign before every dollar sign and brace. -/
def escapeOpen : List Char → List Char
  | '$' :: '\x7b' :: cs => '$' :: '$' :: '\x7b' :: escapeOpen cs
  | c :: cs => c :: escapeOpen cs
  | [] => []

/-- A template that is one interpolation. -/
def interpolation (source : List Char) : List Char :=
  '$' :: '\x7b' :: source ++ ['\x7d']

/-- How a part is written. -/
def Part.render : Part → List Char
  | .text chars => escapeOpen chars
  | .code source => interpolation source

/-- How parts are written, one behind the other. -/
def render (parts : List Part) : List Char :=
  parts.flatMap Part.render

/-- Parts that can be told apart when they are written: texts are not empty, no two of them
are adjacent, and none ends in a dollar sign directly before code. -/
inductive Row (P : List Char → Prop) : List Part → Prop where
  | nil : Row P []
  | code {source : List Char} {rest : List Part} (hsource : P source) (hrest : Row P rest) :
    Row P (.code source :: rest)
  | last {chars : List Char} (hne : chars ≠ []) : Row P [.text chars]
  | text {chars source : List Char} {rest : List Part} (hne : chars ≠ [])
    (hdollar : chars.getLast? ≠ some '$') (hrest : Row P (.code source :: rest)) :
    Row P (.text chars :: .code source :: rest)

/-- An interpolation of the source ends where the source does. -/
def Closes (source : List Char) : Prop :=
  Piece.takeCode (.code 0) (source ++ ['\x7d']) = some (source, [])

/-- The pieces that a rendering of parts is cut into. -/
def pieces (offset : Nat) : List Part → List Piece
  | [] => []
  | .text chars :: rest =>
    .text offset chars :: pieces (offset + (escapeOpen chars).length) rest
  | .code source :: rest =>
    .code (offset + 2) source :: pieces (offset + 2 + source.length + 1) rest

theorem Row.mono {P Q : List Char → Prop} {parts : List Part} (h : Row P parts)
    (hPQ : ∀ source, .code source ∈ parts → P source → Q source) : Row Q parts := by
  induction h with
  | nil => exact .nil
  | code hsource _ ih =>
    exact .code (hPQ _ List.mem_cons_self hsource)
      (ih fun source hmem => hPQ source (List.mem_cons_of_mem _ hmem))
  | last hne => exact .last hne
  | text hne hdollar _ ih =>
    exact .text hne hdollar (ih fun source hmem => hPQ source (List.mem_cons_of_mem _ hmem))

/-! ### Cutting what is rendered -/

theorem escapeOpen_cons {c : Char} {cs : List Char} (h : ∀ rest, c :: cs ≠ '$' :: '\x7b' :: rest) :
    escapeOpen (c :: cs) = c :: escapeOpen cs := by
  rw [escapeOpen]
  rintro rest rfl rfl
  exact h rest rfl

/-- Text begins with the same character when it is rendered. -/
theorem head?_escapeOpen (cs : List Char) : (escapeOpen cs).head? = cs.head? := by
  fun_cases escapeOpen cs with
  | case1 cs => rfl
  | case2 c cs => rfl
  | case3 => rfl

/-- Rendered text does not begin with a dollar sign and a brace. -/
theorem escapeOpen_ne_open (cs rest : List Char) : escapeOpen cs ≠ '$' :: '\x7b' :: rest := by
  fun_cases escapeOpen cs with
  | case1 cs => simp
  | case2 c cs h =>
    intro heq
    obtain ⟨rfl, hcs⟩ := List.cons.inj heq
    have hhead := head?_escapeOpen cs
    rw [hcs, List.head?_cons] at hhead
    obtain ⟨more, rfl⟩ := List.head?_eq_some_iff.mp hhead.symm
    exact h more rfl rfl
  | case3 => simp

/-- A character that opens nothing and escapes nothing is text. -/
theorem split_plain (offset : Nat) {c : Char} {cs : List Char}
    (hescape : ∀ rest, c :: cs ≠ '$' :: '$' :: '\x7b' :: rest)
    (hopen : ∀ rest, c :: cs ≠ '$' :: '\x7b' :: rest) :
    Piece.split offset (c :: cs) = Piece.addText offset [c] (Piece.split (offset + 1) cs) := by
  refine Piece.split.eq_4 _ _ _ ?_ ?_
  · rintro rest rfl rfl
    exact hescape rest rfl
  · rintro rest rfl rfl
    exact hopen rest rfl

/-- What may stand behind rendered text: nothing, or an interpolation unless the text ends in
a dollar sign. -/
def Follows (chars tail : List Char) : Prop :=
  tail = [] ∨ (∃ rest, tail = '$' :: '\x7b' :: rest) ∧ chars.getLast? ≠ some '$'

theorem Follows.of_cons {c : Char} {cs tail : List Char} (h : Follows (c :: cs) tail)
    (hne : cs ≠ []) : Follows cs tail := by
  obtain ⟨second, rest, rfl⟩ := List.exists_cons_of_ne_nil hne
  rwa [Follows, List.getLast?_cons_cons] at h

theorem Follows.head? {chars tail : List Char} (h : Follows chars tail) :
    tail.head? ≠ some '\x7b' := by
  rcases h with rfl | ⟨⟨rest, rfl⟩, -⟩ <;> simp

/-- What follows text is no text. -/
theorem Follows.addText_split {chars tail : List Char} (h : Follows chars tail)
    (offset place : Nat) (cs : List Char) :
    Piece.addText offset cs (Piece.split place tail) =
      .text offset cs :: Piece.split place tail := by
  rcases h with rfl | ⟨⟨rest, rfl⟩, -⟩
  · rw [Piece.split_nil]
    rfl
  · cases hopen : Piece.takeCode (.code 0) rest with
    | none =>
      rw [Piece.split_open_none _ hopen]
      rfl
    | some found =>
      rw [Piece.split_open _ hopen]
      rfl

/-- A dollar sign that is text stands before no brace. -/
theorem Follows.ne_brace {cs tail : List Char} (h : Follows ('$' :: cs) tail)
    (hplain : ∀ rest, cs ≠ '\x7b' :: rest) (rest : List Char) :
    escapeOpen cs ++ tail ≠ '\x7b' :: rest := by
  intro heq
  have hhead : (escapeOpen cs ++ tail).head? = some '\x7b' := by rw [heq, List.head?_cons]
  rw [List.head?_append, head?_escapeOpen] at hhead
  cases cs with
  | nil => exact h.head? hhead
  | cons c cs =>
    cases hhead
    exact hplain cs rfl

/-- A dollar sign that is text stands before no interpolation. -/
theorem Follows.ne_open {cs tail : List Char} (h : Follows ('$' :: cs) tail) (rest : List Char) :
    escapeOpen cs ++ tail ≠ '$' :: '\x7b' :: rest := by
  intro heq
  cases cs with
  | nil =>
    rcases h with rfl | ⟨-, hdollar⟩
    · cases heq
    · exact hdollar rfl
  | cons c cs =>
    have hne := escapeOpen_ne_open (c :: cs)
    have hhead := head?_escapeOpen (c :: cs)
    generalize escapeOpen (c :: cs) = rendered at heq hne hhead
    cases rendered with
    | nil => cases hhead
    | cons first more =>
      cases more with
      | nil =>
        obtain ⟨-, rfl⟩ := List.cons.inj heq
        exact h.head? rfl
      | cons second others =>
        simp only [List.cons_append, List.cons.injEq] at heq
        obtain ⟨rfl, rfl, -⟩ := heq
        exact hne others rfl

/-- Text is joined to the text behind it. -/
theorem Follows.addText_rendered {chars tail cs : List Char} (h : Follows chars tail) {place : Nat}
    (hcs : cs ≠ [] → Piece.split place (escapeOpen cs ++ tail) =
      .text place cs :: Piece.split (place + (escapeOpen cs).length) tail)
    (offset : Nat) (first : List Char) :
    Piece.addText offset first (Piece.split place (escapeOpen cs ++ tail)) =
      .text offset (first ++ cs) :: Piece.split (place + (escapeOpen cs).length) tail := by
  by_cases hnil : cs = []
  · subst hnil
    rw [List.append_nil]
    exact h.addText_split offset place first
  · rw [hcs hnil]
    rfl

/-- Rendered text is one piece. -/
theorem split_text {chars tail : List Char} (hne : chars ≠ []) (h : Follows chars tail)
    (offset : Nat) :
    Piece.split offset (escapeOpen chars ++ tail) =
      .text offset chars :: Piece.split (offset + (escapeOpen chars).length) tail := by
  fun_induction escapeOpen chars generalizing offset with
  | case1 cs ih =>
    rw [List.cons_append, List.cons_append, List.cons_append, Piece.split_escape,
      h.addText_rendered fun hcs => ih hcs ((h.of_cons (List.cons_ne_nil _ _)).of_cons hcs) _]
    congr 2
    simp only [List.length_cons]
    omega
  | case2 c cs hplain ih =>
    rw [List.cons_append, split_plain, h.addText_rendered fun hcs => ih hcs (h.of_cons hcs) _]
    · congr 2
      simp only [List.length_cons]
      omega
    · intro rest heq
      obtain ⟨rfl, hrest⟩ := List.cons.inj heq
      exact h.ne_open rest hrest
    · intro rest heq
      obtain ⟨rfl, hrest⟩ := List.cons.inj heq
      exact h.ne_brace (fun more hcs => hplain more rfl hcs) rest hrest
  | case3 => exact absurd rfl hne

/-- What ends an interpolation does not depend on what stands behind it. -/
theorem takeCode_behind {within : Piece.Within} {source rest : List Char}
    (h : Piece.takeCode within (source ++ '\x7d' :: rest) = some (source, rest))
    (rest' : List Char) :
    Piece.takeCode within (source ++ '\x7d' :: rest') = some (source, rest') := by
  induction source generalizing within with
  | nil =>
    rw [List.nil_append, Piece.takeCode] at h ⊢
    cases hpass : within.pass '\x7d' with
    | none => rfl
    | some next => simp [hpass] at h
  | cons c source ih =>
    rw [List.cons_append, Piece.takeCode] at h ⊢
    cases hpass : within.pass c with
    | none => simp [hpass] at h
    | some next =>
      simp only [hpass] at h ⊢
      obtain ⟨⟨taken, left⟩, hr, heq⟩ := Option.map_eq_some_iff.mp h
      cases heq
      rw [ih hr]
      rfl

/-- **What parts are rendered as is cut into these parts.** -/
theorem split_render {parts : List Part} (h : Row Closes parts) (offset : Nat) :
    Piece.split offset (render parts) = pieces offset parts := by
  induction h generalizing offset with
  | nil => exact Piece.split_nil offset
  | @code source rest hsource _ ih =>
    have hclose := takeCode_behind hsource (render rest)
    have hrender : render (.code source :: rest) =
        '$' :: '\x7b' :: (source ++ '\x7d' :: render rest) := by
      simp [render, Part.render, interpolation]
    rw [hrender, Piece.split_open _ hclose, ih, pieces]
  | @last chars hne =>
    have htext := split_text hne (.inl rfl : Follows chars []) offset
    rw [Piece.split_nil] at htext
    simpa [render, Part.render, pieces] using htext
  | @text chars source rest hne hdollar _ ih =>
    have hfollows : Follows chars (render (.code source :: rest)) := .inr ⟨⟨_, rfl⟩, hdollar⟩
    have hrender : render (.text chars :: .code source :: rest) =
        escapeOpen chars ++ render (.code source :: rest) := rfl
    rw [hrender, split_text hne hfollows, ih, pieces]

/-! ### Rendering what is cut -/

/-- Text is put in front of a row, as long as its rendering keeps its meaning there. -/
theorem Row.addText {P : List Char → Prop} {parts : List Part} (h : Row P parts)
    (first written : List Char) (hne : first ≠ [])
    (hdollar : ∀ source rest, parts = .code source :: rest → first.getLast? ≠ some '$')
    (hwritten : ∀ more, more = [] ∨ (∃ rest, parts = .text more :: rest) →
      escapeOpen (first ++ more) = written ++ escapeOpen more) :
    ∃ all, Row P all ∧ render all = written ++ render parts := by
  have halone : escapeOpen first = written := by
    simpa [escapeOpen] using hwritten [] (.inl rfl)
  cases h with
  | nil => exact ⟨[.text first], .last hne, by simp [render, Part.render, halone]⟩
  | @code source rest hsource hrest =>
    exact ⟨.text first :: .code source :: rest, .text hne (hdollar _ _ rfl) (.code hsource hrest),
      by simp [render, Part.render, halone]⟩
  | @last chars hchars =>
    have hjoined := hwritten chars (.inr ⟨_, rfl⟩)
    exact ⟨[.text (first ++ chars)], .last (by simp [hchars]),
      by simp [render, Part.render, hjoined]⟩
  | @text chars source rest hchars hend hrest =>
    have hjoined := hwritten chars (.inr ⟨_, rfl⟩)
    refine ⟨.text (first ++ chars) :: .code source :: rest, .text (by simp [hchars]) ?_ hrest,
      by simp [render, Part.render, hjoined]⟩
    rwa [List.getLast?_append_of_ne_nil _ hchars]

/-- **A template without an open end is the rendering of a row of parts.** -/
theorem exists_row {offset : Nat} {cs : List Char}
    (h : ∀ place, .unclosed place ∉ Piece.split offset cs) :
    ∃ parts, Row Closes parts ∧ render parts = cs := by
  fun_induction Piece.split offset cs with
  | case1 offset => exact ⟨[], .nil, rfl⟩
  | case2 offset cs ih =>
    obtain ⟨parts, hparts, rfl⟩ := ih fun place hmem =>
      h place ((Piece.mem_addText (by simp)).mpr hmem)
    exact hparts.addText ['$', '\x7b'] ['$', '$', '\x7b'] (by simp) (by simp) fun more _ => rfl
  | case3 offset cs hopen => exact absurd (List.mem_singleton_self _) (h offset)
  | case4 offset cs source rest hopen ih =>
    obtain ⟨parts, hparts, rfl⟩ := ih fun place hmem => h place (List.mem_cons_of_mem _ hmem)
    have hcs := Piece.takeCode_close hopen
    rw [hcs] at hopen
    exact ⟨.code source :: parts, .code (takeCode_behind hopen []) hparts,
      by simp [render, Part.render, interpolation, hcs]⟩
  | case5 offset c cs hescape hopen ih =>
    obtain ⟨parts, hparts, rfl⟩ := ih fun place hmem =>
      h place ((Piece.mem_addText (by simp)).mpr hmem)
    refine hparts.addText [c] [c] (by simp) ?_ fun more hmore => ?_
    · rintro source rest rfl hdollar
      obtain rfl : c = '$' := by simpa using hdollar
      exact hescape _ rfl rfl
    · refine escapeOpen_cons fun others heq => ?_
      obtain ⟨rfl, rfl⟩ := List.cons.inj heq
      rcases hmore with hnil | ⟨rest, rfl⟩
      · cases hnil
      · exact hopen _ rfl rfl

/-- The pieces of a rendering are those of one row of parts only. -/
theorem pieces_injective {offset : Nat} {parts others : List Part}
    (h : pieces offset parts = pieces offset others) : parts = others := by
  induction parts generalizing offset others with
  | nil =>
    cases others with
    | nil => rfl
    | cons other rest => cases other <;> cases h
  | cons part rest ih =>
    cases others with
    | nil => cases part <;> cases h
    | cons other rest' =>
      cases part with
      | text chars =>
        cases other with
        | text chars' =>
          obtain ⟨hpiece, hrest⟩ := List.cons.inj h
          cases hpiece
          rw [ih hrest]
        | code source => cases h
      | code source =>
        cases other with
        | text chars => cases h
        | code source' =>
          obtain ⟨hpiece, hrest⟩ := List.cons.inj h
          cases hpiece
          rw [ih hrest]

/-! ### Reading what is rendered -/

variable {Owner : Type}

/-- The node of a part, apart from its position. -/
def Part.Means : Part → Node Owner → Prop
  | .text chars, n => ∃ pos, n = .literal pos (.text (String.ofList chars))
  | .code source, n => meaning source = .ok n.unplaced

theorem length_le_render {parts : List Part} {source : List Char} (h : .code source ∈ parts) :
    source.length ≤ (render parts).length := by
  obtain ⟨before, after, rfl⟩ := List.append_of_mem h
  simp [render, Part.render, interpolation]
  omega

section Pieces

variable {locate : Nat → Pos} {level offset : Nat}

theorem means_of_ofPieces {parts : List Part}
    (hlevel : ∀ source, .code source ∈ parts → source.length ≤ level) {nodes : List (Node Owner)}
    (h : ofPieces locate (ofString locate level) (pieces offset parts) = .ok nodes) :
    List.Forall₂ Part.Means parts nodes := by
  induction parts generalizing offset nodes with
  | nil =>
    cases h
    exact .nil
  | cons part rest ih =>
    have hrest : ∀ source, .code source ∈ rest → source.length ≤ level :=
      fun source hmem => hlevel source (List.mem_cons_of_mem _ hmem)
    cases part with
    | text chars =>
      rw [pieces, ofPieces] at h
      obtain ⟨n, hn, h⟩ := bind_eq_ok.mp h
      obtain ⟨others, hothers, h⟩ := bind_eq_ok.mp h
      cases h
      cases hn
      exact .cons ⟨_, rfl⟩ (ih hrest hothers)
    | code source =>
      rw [pieces, ofPieces] at h
      obtain ⟨n, hn, h⟩ := bind_eq_ok.mp h
      obtain ⟨others, hothers, h⟩ := bind_eq_ok.mp h
      cases h
      refine .cons ?_ (ih hrest hothers)
      show meaning source = _
      rw [← expression_unplaced (hlevel source List.mem_cons_self) (offset + 2)]
      exact carry_eq_ok.mpr ⟨n, hn, rfl⟩

theorem exists_ofPieces {parts : List Part}
    (hlevel : ∀ source, .code source ∈ parts → source.length ≤ level)
    (hmeaning : ∀ source, .code source ∈ parts → ∃ m : Node Owner, meaning source = .ok m) :
    ∃ nodes : List (Node Owner),
      ofPieces locate (ofString locate level) (pieces offset parts) = .ok nodes := by
  induction parts generalizing offset with
  | nil => exact ⟨[], rfl⟩
  | cons part rest ih =>
    have hothers := fun place => @ih place
      (fun source hmem => hlevel source (List.mem_cons_of_mem _ hmem))
      (fun source hmem => hmeaning source (List.mem_cons_of_mem _ hmem))
    cases part with
    | text chars =>
      obtain ⟨others, hothers⟩ := hothers (offset + (escapeOpen chars).length)
      exact ⟨_, bind_eq_ok.mpr ⟨_, rfl, bind_eq_ok.mpr ⟨others, hothers, rfl⟩⟩⟩
    | code source =>
      obtain ⟨others, hothers⟩ := hothers (offset + 2 + source.length + 1)
      obtain ⟨m, hm⟩ := hmeaning source List.mem_cons_self
      rw [← expression_unplaced (hlevel source List.mem_cons_self) (offset + 2)] at hm
      obtain ⟨n, hn, -⟩ := carry_eq_ok.mp hm
      exact ⟨_, bind_eq_ok.mpr ⟨n, hn, bind_eq_ok.mpr ⟨others, hothers, rfl⟩⟩⟩

/-- A template that can be read has no open end. -/
theorem closed_of_ofPieces {string : Nat → List Char → Except ParseFailure (Node Owner)}
    {all : List Piece} {nodes : List (Node Owner)} (h : ofPieces locate string all = .ok nodes) :
    ∀ place, .unclosed place ∉ all := by
  induction all generalizing nodes with
  | nil => simp
  | cons piece rest ih =>
    intro place hmem
    obtain ⟨n, hn, h⟩ := bind_eq_ok.mp h
    obtain ⟨others, hothers, -⟩ := bind_eq_ok.mp h
    rcases List.mem_cons.mp hmem with rfl | hmem
    · cases hn
    · exact ih hothers place hmem

end Pieces

/-- A template is read piece by piece. -/
theorem parse_eq_ok_iff {text : String} {start : Pos} {n : Node Owner} :
    parse text start = .ok n ↔ ∃ nodes, ofPieces (start.locate text.toList)
      (ofString (start.locate text.toList) text.toList.length) (Piece.split 0 text.toList) =
        .ok nodes ∧ n = .output start nodes := by
  rw [parse]
  constructor
  · intro h
    obtain ⟨nodes, hnodes, h⟩ := bind_eq_ok.mp h
    cases h
    exact ⟨nodes, hnodes, rfl⟩
  · rintro ⟨nodes, hnodes, rfl⟩
    exact bind_eq_ok.mpr ⟨nodes, hnodes, rfl⟩

/-- A rendering that can be read means its parts. -/
theorem means_of_parse {parts : List Part} (h : Row Closes parts) {start : Pos} {n : Node Owner}
    (hparse : parse (String.ofList (render parts)) start = .ok n) :
    ∃ nodes, n = .output start nodes ∧ List.Forall₂ Part.Means parts nodes := by
  obtain ⟨nodes, hnodes, rfl⟩ := parse_eq_ok_iff.mp hparse
  rw [String.toList_ofList, split_render h] at hnodes
  exact ⟨nodes, rfl, means_of_ofPieces (fun source => length_le_render) hnodes⟩

/-- A rendering can be read if the code in it can. -/
theorem exists_parse {parts : List Part} (h : Row Closes parts) (start : Pos)
    (hmeaning : ∀ source, .code source ∈ parts → ∃ m : Node Owner, meaning source = .ok m) :
    ∃ n : Node Owner, parse (String.ofList (render parts)) start = .ok n := by
  have hpieces : ∃ nodes : List (Node Owner), ofPieces (start.locate (render parts))
      (ofString (start.locate (render parts)) (render parts).length) (pieces 0 parts) = .ok nodes :=
    exists_ofPieces (fun source => length_le_render) hmeaning
  obtain ⟨nodes, hnodes⟩ := hpieces
  refine ⟨.output start nodes, parse_eq_ok_iff.mpr ⟨nodes, ?_, rfl⟩⟩
  rw [String.toList_ofList, split_render h]
  exact hnodes

/-- A text that can be read is the rendering of a row of parts. -/
theorem exists_row_of_parse {text : String} {start : Pos} {n : Node Owner}
    (h : parse text start = .ok n) : ∃ parts, Row Closes parts ∧ render parts = text.toList := by
  obtain ⟨nodes, hnodes, -⟩ := parse_eq_ok_iff.mp h
  exact exists_row (closed_of_ofPieces hnodes)

/-! ### The source of an expression -/

/-- The source of an expression: an interpolation of it can be read and is all there is. -/
def IsSource (Owner : Type) (source : List Char) : Prop :=
  ∃ m : Node Owner, parse (String.ofList (interpolation source)) ⟨"", 1, 1⟩ =
    .ok (.output ⟨"", 1, 1⟩ [m])

/-- The node of a part: a literal that holds the text, or the tree of the expression apart
from positions. -/
def Part.Gives : Part → Node Owner → Prop
  | .text chars, n => ∃ pos, n = .literal pos (.text (String.ofList chars))
  | .code source, n => ∃ m, parse (String.ofList (interpolation source)) ⟨"", 1, 1⟩ =
      .ok (.output ⟨"", 1, 1⟩ [m]) ∧ n.unplaced = m.unplaced

theorem render_code (source : List Char) : render [.code source] = interpolation source := by
  simp [render, Part.render]

theorem IsSource.closes {source : List Char} (h : IsSource Owner source) : Closes source := by
  obtain ⟨m, hm⟩ := h
  obtain ⟨parts, hparts, hrender⟩ := exists_row_of_parse hm
  rw [String.toList_ofList] at hrender
  rw [← hrender] at hm
  obtain ⟨_, heq, hmeans⟩ := means_of_parse hparts hm
  cases heq
  -- there is one node, so there is one part, and it is no text
  obtain ⟨part, rest, -, hrest, rfl⟩ := List.forall₂_cons_right_iff.mp hmeans
  obtain rfl := List.forall₂_nil_right_iff.mp hrest
  cases hparts with
  | @last chars =>
    have htext : escapeOpen chars = interpolation source := by
      simpa [render, Part.render] using hrender
    exact absurd htext (escapeOpen_ne_open _ _)
  | @code other _ hother _ =>
    rw [render_code, interpolation, interpolation] at hrender
    obtain rfl : other = source := by simpa using hrender
    exact hother

/-- What a closed source gives is what it means. -/
theorem gives_iff_means {part : Part} (hpart : ∀ source, part = .code source → Closes source)
    (n : Node Owner) : part.Gives n ↔ part.Means n := by
  cases part with
  | text chars => exact Iff.rfl
  | code source =>
    have hrow : Row Closes [.code source] := .code (hpart source rfl) .nil
    constructor
    · rintro ⟨m, hm, hn⟩
      rw [← render_code] at hm
      obtain ⟨_, heq, hmeans⟩ := means_of_parse hrow hm
      cases heq
      cases hmeans with
      | cons hmeans _ => exact hmeans.trans (congrArg _ hn.symm)
    · intro hmeans
      obtain ⟨root, hroot⟩ := exists_parse hrow ⟨"", 1, 1⟩ fun other hother => by
        cases List.mem_singleton.mp hother
        exact ⟨_, hmeans⟩
      obtain ⟨nodes, rfl, hnodes⟩ := means_of_parse hrow hroot
      obtain ⟨m, rest, hm, hrest, rfl⟩ := List.forall₂_cons_left_iff.mp hnodes
      obtain rfl := List.forall₂_nil_left_iff.mp hrest
      refine ⟨m, render_code source ▸ hroot, ?_⟩
      exact Except.ok.inj (hmeans.symm.trans hm)

theorem IsSource.meaning {source : List Char} (h : IsSource Owner source) :
    ∃ m : Node Owner, Template.meaning source = .ok m := by
  obtain ⟨m, hm⟩ := h
  have hgives : (Part.code source).Gives m := ⟨m, hm, rfl⟩
  refine ⟨_, (gives_iff_means (fun other hother => ?_) m).mp hgives⟩
  cases hother
  exact IsSource.closes ⟨m, hm⟩

theorem Row.forall_code {P : List Char → Prop} {parts : List Part} (h : Row P parts) :
    ∀ source, .code source ∈ parts → P source := by
  induction h with
  | nil => exact fun source hmem => nomatch hmem
  | code hsource _ ih =>
    intro source hmem
    rcases List.mem_cons.mp hmem with heq | hmem
    · cases heq
      exact hsource
    · exact ih source hmem
  | last => simp
  | text _ _ _ ih =>
    intro source hmem
    rcases List.mem_cons.mp hmem with heq | hmem
    · cases heq
    · exact ih source hmem

theorem forall₂_gives_iff {parts : List Part} (h : ∀ source, .code source ∈ parts → Closes source)
    {nodes : List (Node Owner)} :
    List.Forall₂ Part.Gives parts nodes ↔ List.Forall₂ Part.Means parts nodes := by
  induction parts generalizing nodes with
  | nil => rw [List.forall₂_nil_left_iff, List.forall₂_nil_left_iff]
  | cons part rest ih =>
    have hpart : ∀ n : Node Owner, part.Gives n ↔ part.Means n :=
      gives_iff_means fun source hsource => h source (hsource ▸ List.mem_cons_self)
    have hrest := @ih fun source hmem => h source (List.mem_cons_of_mem _ hmem)
    rw [List.forall₂_cons_left_iff, List.forall₂_cons_left_iff]
    simp only [hpart, hrest]

theorem isSource_of_gives {parts : List Part} {nodes : List (Node Owner)}
    (h : List.Forall₂ Part.Gives parts nodes) :
    ∀ source, .code source ∈ parts → IsSource Owner source := by
  induction h with
  | nil => exact fun source hmem => nomatch hmem
  | cons hn _ ih =>
    intro source hmem
    rcases List.mem_cons.mp hmem with rfl | hmem
    · obtain ⟨m, hm, -⟩ := hn
      exact ⟨m, hm⟩
    · exact ih source hmem

/-- **Splitting a template and rendering its parts undo each other.**  The rendering of a row
of parts can be read, and its root has one kid for each part, in order.  Conversely every
text that can be read is the rendering of one row of parts only, the one that the kids of its
root come from. -/
theorem parse_render (start : Pos) :
    (∀ parts, Row (IsSource Owner) parts → ∃ nodes : List (Node Owner),
      parse (String.ofList (render parts)) start = .ok (.output start nodes) ∧
        List.Forall₂ Part.Gives parts nodes) ∧
    ∀ text (n : Node Owner), parse text start = .ok n → ∃ parts nodes,
      n = .output start nodes ∧ List.Forall₂ Part.Gives parts nodes ∧
        Row (IsSource Owner) parts ∧ render parts = text.toList ∧
        ∀ others, Row (IsSource Owner) others → render others = text.toList → others = parts := by
  constructor
  · intro parts hparts
    have hrow : Row Closes parts := hparts.mono fun source _ => IsSource.closes
    obtain ⟨n, hn⟩ := exists_parse hrow start fun source hmem =>
      (hparts.forall_code source hmem).meaning
    obtain ⟨nodes, rfl, hnodes⟩ := means_of_parse hrow hn
    exact ⟨nodes, hn, (forall₂_gives_iff hrow.forall_code).mpr hnodes⟩
  · intro text n h
    obtain ⟨parts, hrow, hrender⟩ := exists_row_of_parse h
    have hparse := h
    rw [← String.ofList_toList (s := text), ← hrender] at hparse
    obtain ⟨nodes, hn, hmeans⟩ := means_of_parse hrow hparse
    have hgives := (forall₂_gives_iff hrow.forall_code).mpr hmeans
    refine ⟨parts, nodes, hn, hgives, hrow.mono fun source hmem _ => ?_, hrender, ?_⟩
    · exact isSource_of_gives hgives source hmem
    · intro others hothers heq
      have hrow' : Row Closes others := hothers.mono fun source _ => IsSource.closes
      have hpieces : pieces 0 others = pieces 0 parts := by
        rw [← split_render hrow, ← split_render hrow', hrender, heq]
      exact pieces_injective hpieces

/-- Text with dollar signs and braces, around a string literal that holds a closing brace. -/
private def awkward : List Part :=
  [.text "$$\x7b \x7d$ ".toList, .code "f(\"\x7d\")".toList, .text "\x7b$".toList]

theorem parse_render_awkward : ∃ nodes : List (Node Empty),
    parse "$$$\x7b \x7d$ $\x7bf(\"\x7d\")\x7d\x7b$" ⟨"", 1, 1⟩ = .ok (.output ⟨"", 1, 1⟩ nodes) ∧
      List.Forall₂ Part.Gives awkward nodes := by
  have hsource : IsSource Empty "f(\"\x7d\")".toList :=
    ⟨.call none ⟨"", 1, 3⟩ "f" [.literal ⟨"", 1, 6⟩ (.text "\x7d")], by with_unfolding_all rfl⟩
  have hrow : Row (IsSource Empty) awkward :=
    .text (by simp) (by decide) (.code hsource (.last (by simp)))
  exact (parse_render ⟨"", 1, 1⟩).1 awkward hrow

end Interpolation.Template
