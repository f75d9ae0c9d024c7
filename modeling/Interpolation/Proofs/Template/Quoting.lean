/-
String literals that quote templates.

* `unescape_escapeQuotes` — escaping a text is undone when its literal is read;
* `isBody_quote` — what parts are quoted as can stand between the quotes of a literal;
* `parse_quoted` — a string literal is read as the parts that are quoted in it.

Design notes: a string literal is gone through three times.  The search for the brace that
closes an interpolation and the lexer only pass over it, and both skip a character behind a
backslash, so for them the quoted parts have to be a body (`IsBody`).  The body is then cut
like any template, with its backslashes still in it: to this cut the quoted parts are a row
of parts again, whose texts are the escaped ones.  Escapes are undone last, in each text
alone.
-/
import Interpolation.Proofs.Template.Rendering

namespace Interpolation.Template

open Lexer

/-- Text with a backslash before every backslash and every quote. -/
def escapeQuotes : List Char → List Char
  | '\\' :: cs => '\\' :: '\\' :: escapeQuotes cs
  | '"' :: cs => '\\' :: '"' :: escapeQuotes cs
  | c :: cs => c :: escapeQuotes cs
  | [] => []

/-- A part with its text escaped. -/
def Part.escape : Part → Part
  | .text chars => .text (escapeQuotes chars)
  | .code source => .code source

/-- What stands between the quotes of a string literal that quotes parts. -/
def quote (parts : List Part) : List Char :=
  render (parts.map Part.escape)

/-- A string literal with the given body. -/
def stringLiteral (body : List Char) : List Char :=
  '"' :: body ++ ['"']

/-- The source of an expression that is a part of its own in a string literal: it holds no
quote, an interpolation of it can be read, and its tree is no literal. -/
def IsEmbedded (Owner : Type) (source : List Char) : Prop :=
  '"' ∉ source ∧ ∃ m : Node Owner,
    parse (String.ofList (interpolation source)) ⟨"", 1, 1⟩ = .ok (.output ⟨"", 1, 1⟩ [m]) ∧
      ∀ pos value, m ≠ .literal pos value

variable {Owner : Type}

/-- The node of a string literal that quotes parts: a literal if there is nothing but text,
and otherwise a template of its own with a node for each part. -/
def Decodes : List Part → Node Owner → Prop
  | [], n => ∃ pos, n = .literal pos (.text "")
  | [.text chars], n => ∃ pos, n = .literal pos (.text (String.ofList chars))
  | parts, n => ∃ pos nodes, n = .output pos nodes ∧ List.Forall₂ Part.Gives parts nodes

/-! ### Escaping -/

theorem escapeQuotes_plain {c : Char} (hslash : c ≠ '\\') (hquote : c ≠ '"') (cs : List Char) :
    escapeQuotes (c :: cs) = c :: escapeQuotes cs :=
  escapeQuotes.eq_3 c cs hslash hquote

/-- **Escaping a text is undone when its literal is read.** -/
theorem unescape_escapeQuotes (cs : List Char) : unescape (escapeQuotes cs) = cs := by
  fun_induction escapeQuotes cs with
  | case1 cs ih => simp [unescape, ih]
  | case2 cs ih => simp [unescape, ih]
  | case3 c cs hslash hquote ih =>
    rw [unescape, ih]
    exact fun _ _ heq => absurd heq hslash
  | case4 => rfl

theorem escapeQuotes_ne_nil {cs : List Char} (h : cs ≠ []) : escapeQuotes cs ≠ [] := by
  fun_cases escapeQuotes cs with
  | case4 => exact absurd rfl h
  | _ => simp

/-- Escaped text ends in the same character as the text. -/
theorem getLast?_escapeQuotes (cs : List Char) : (escapeQuotes cs).getLast? = cs.getLast? := by
  have hcons : ∀ (c : Char) (cs : List Char), (escapeQuotes cs).getLast? = cs.getLast? →
      (c :: escapeQuotes cs).getLast? = (c :: cs).getLast? := by
    intro c cs ih
    rw [List.getLast?_cons, List.getLast?_cons, ih]
  fun_induction escapeQuotes cs with
  | case1 cs ih => rw [List.getLast?_cons_cons, hcons _ _ ih]
  | case2 cs ih => rw [List.getLast?_cons_cons, hcons _ _ ih]
  | case3 c cs _ _ ih => exact hcons c cs ih
  | case4 => rfl

/-- Escaped text begins with a brace only if the text does. -/
theorem head?_escapeQuotes {cs : List Char} (h : (escapeQuotes cs).head? = some '\x7b') :
    cs.head? = some '\x7b' := by
  fun_cases escapeQuotes cs with
  | case1 cs => cases h
  | case2 cs => cases h
  | case3 c cs hslash hquote =>
    rwa [escapeQuotes_plain hslash hquote] at h
  | case4 => cases h

/-- Quotes and openings can be escaped in either order. -/
theorem escapeOpen_escapeQuotes (cs : List Char) :
    escapeOpen (escapeQuotes cs) = escapeQuotes (escapeOpen cs) := by
  have hslash : ∀ c (cs : List Char),
      escapeOpen ('\\' :: c :: cs) = '\\' :: escapeOpen (c :: cs) := by
    intro c cs
    exact escapeOpen_cons (by simp)
  fun_induction escapeOpen cs with
  | case1 cs ih =>
    simp only [escapeQuotes_plain (c := '$') (by decide) (by decide),
      escapeQuotes_plain (c := '\x7b') (by decide) (by decide), escapeOpen, ih]
  | case2 c cs hplain ih =>
    by_cases hc : c = '\\' ∨ c = '"'
    · rcases hc with rfl | rfl
      · rw [escapeQuotes, hslash, escapeOpen_cons (by simp), ih, escapeQuotes]
      · rw [escapeQuotes, hslash, escapeOpen_cons (by simp), ih, escapeQuotes]
    · obtain ⟨hslash, hquote⟩ := not_or.mp hc
      rw [escapeQuotes_plain hslash hquote, escapeQuotes_plain hslash hquote,
        escapeOpen_cons, ih]
      intro rest heq
      obtain ⟨rfl, hrest⟩ := List.cons.inj heq
      obtain ⟨more, rfl⟩ := List.head?_eq_some_iff.mp
        (head?_escapeQuotes (by rw [hrest, List.head?_cons]))
      exact hplain more rfl rfl
  | case3 => rfl

/-! ### Bodies of string literals -/

theorem IsBody.append {a b : List Char} (ha : IsBody a) (hb : IsBody b) : IsBody (a ++ b) := by
  induction ha with
  | nil => exact hb
  | escaped hc _ ih => exact .escaped hc ih
  | plain hquote hslash _ ih => exact .plain hquote hslash ih

theorem isBody_escapeQuotes (cs : List Char) : IsBody (escapeQuotes cs) := by
  fun_induction escapeQuotes cs with
  | case1 cs ih => exact .escaped (by decide) ih
  | case2 cs ih => exact .escaped (by decide) ih
  | case3 c cs hslash hquote ih => exact .plain hquote hslash ih
  | case4 => exact .nil

theorem isBody_of_not_mem {cs : List Char} (hquote : '"' ∉ cs) (hslash : '\\' ∉ cs) :
    IsBody cs := by
  induction cs with
  | nil => exact .nil
  | cons c cs ih =>
    rw [List.mem_cons, not_or] at hquote hslash
    exact .plain (Ne.symm hquote.1) (Ne.symm hslash.1) (ih hquote.2 hslash.2)

/-- The search for a closing brace passes over a body. -/
theorem takeCode_body {body : List Char} (h : IsBody body) (depth : Nat) (rest : List Char) :
    Piece.takeCode (.string depth) (body ++ rest) =
      (Piece.takeCode (.string depth) rest).map fun r => (body ++ r.1, r.2) := by
  induction h with
  | nil => simp
  | escaped hc _ ih =>
    simp [Piece.takeCode, Piece.Within.pass, ih, Function.comp_def]
  | plain hquote hslash _ ih =>
    simp [Piece.takeCode, Piece.Within.pass, hquote, hslash, ih, Function.comp_def]

theorem closes_stringLiteral {body : List Char} (h : IsBody body) :
    Closes (stringLiteral body) := by
  have hpass : Piece.takeCode (.string 0) (body ++ ['"', '\x7d']) = some (body ++ ['"'], []) := by
    rw [takeCode_body h]
    rfl
  simp [Closes, stringLiteral, Piece.takeCode, Piece.Within.pass, hpass]

/-! ### Code without quotes -/

theorem IsName.slash_not_mem {name : List Char} (h : IsName name) : '\\' ∉ name := by
  obtain ⟨c, first, segments, hc, hfirst, hsegments, rfl⟩ := h
  intro hmem
  rcases List.mem_append.mp hmem with hmem | hmem
  · rcases List.mem_cons.mp hmem with rfl | hmem
    · cases hc
    · cases hfirst _ hmem
  · obtain ⟨segment, hsegment, hmem⟩ := List.mem_flatMap.mp hmem
    have hmem : '\\' ∈ segment := by simpa using hmem
    rcases hsegments segment hsegment with rfl | ⟨-, hall⟩
    · simp at hmem
    · cases hall _ hmem

theorem IsNumber.slash_not_mem {digits : List Char} (h : IsNumber digits) : '\\' ∉ digits := by
  have hdigits : ∀ {ds : List Char}, IsDigits ds → '\\' ∉ ds := by
    rintro ds ⟨-, hds⟩ hmem
    cases hds _ hmem
  rcases h with h | ⟨whole, fraction, hwhole, hfraction, rfl⟩
  · exact hdigits h
  · simp [hdigits hwhole, hdigits hfraction]

/-- Backslashes are written in string literals only. -/
theorem Token.Spelled.quoted_of_slash {token : Token} (h : token.Spelled)
    (hslash : '\\' ∈ token.text) : ∃ body, token = .quoted body := by
  rcases h.cases with ⟨body, -, rfl⟩ | ⟨digits, hdigits, rfl⟩ | ⟨word, hword, rfl⟩ | hmark
  · exact ⟨body, rfl⟩
  · exact absurd hslash hdigits.slash_not_mem
  · rw [Token.text_ofWord] at hslash
    exact absurd hslash hword.slash_not_mem
  · have hall : ∀ t ∈ marksFor .operator, '\\' ∉ t.text := by decide
    exact absurd hslash (hall token hmark)

/-- In a text that is cut into tokens every backslash is behind a quote. -/
theorem Cut.quote_mem_of_slash {offset : Nat} {a b : List Char} {lexemes : List Lexeme}
    (h : Cut offset (a ++ '\\' :: b) lexemes) : '"' ∈ a := by
  generalize hcs : a ++ '\\' :: b = cs at h
  induction h generalizing a with
  | done => simp at hcs
  | space hc _ ih =>
    cases a with
    | nil =>
      obtain ⟨rfl, -⟩ := List.cons.inj hcs
      cases hc
    | cons d a => exact List.mem_cons_of_mem _ (ih (List.cons.inj hcs).2)
  | @token _ _ rest token _ hfirst _ ih =>
    rw [← hfirst.text_append, List.append_eq_append_iff] at hcs
    rcases hcs with ⟨part, htext, hslash⟩ | ⟨more, rfl, hrest⟩
    · cases part with
      | nil => cases ih (a := []) hslash
      | cons d part =>
        -- the token with the backslash is a string literal, which begins with a quote
        obtain ⟨rfl, -⟩ := List.cons.inj hslash
        obtain ⟨body, rfl⟩ := hfirst.spelled.quoted_of_slash (by simp [htext])
        cases a with
        | nil => cases htext
        | cons first a =>
          obtain ⟨rfl, -⟩ := List.cons.inj htext
          exact List.mem_cons_self
    · exact List.mem_append_right _ (ih hrest.symm)

theorem Cut.slash_not_mem {offset : Nat} {cs : List Char} {lexemes : List Lexeme}
    (h : Cut offset cs lexemes) (hquote : '"' ∉ cs) : '\\' ∉ cs := by
  intro hslash
  obtain ⟨a, b, rfl⟩ := List.append_of_mem hslash
  exact hquote (List.mem_append_left _ h.quote_mem_of_slash)

/-- What means something is cut into tokens that are derived. -/
theorem exists_cut_of_meaning {source : List Char} {m : Node Owner}
    (h : meaning source = .ok m) :
    ∃ lexemes p, Cut 0 source lexemes ∧ Derives .expr p lexemes := by
  rw [meaning, expression] at h
  split at h
  · cases h
  · split at h
    · cases h
    · next p hread =>
      obtain ⟨lexemes, hcut, hp⟩ := readPhrase_eq_ok_iff.mp hread
      exact ⟨lexemes, p, hcut, hp⟩

/-! ### Quoting -/

theorem IsEmbedded.isSource {source : List Char} (h : IsEmbedded Owner source) :
    IsSource Owner source := by
  obtain ⟨-, m, hm, -⟩ := h
  exact ⟨m, hm⟩

theorem IsEmbedded.isBody {source : List Char} (h : IsEmbedded Owner source) :
    IsBody source := by
  obtain ⟨m, hm⟩ := h.isSource.meaning
  obtain ⟨lexemes, _, hcut, -⟩ := exists_cut_of_meaning hm
  exact isBody_of_not_mem h.1 (hcut.slash_not_mem h.1)

theorem Node.not_literal_of_unplaced {m n : Node Owner} (h : m.unplaced = n.unplaced)
    (hm : ∀ pos value, m ≠ .literal pos value) (pos : Pos) (value : Value) :
    n ≠ .literal pos value := by
  rintro rfl
  cases m with
  | literal place other => exact hm place other rfl
  | _ => cases h

/-- The node that embedded code gives is no literal. -/
theorem IsEmbedded.not_literal {source : List Char} (h : IsEmbedded Owner source)
    {n : Node Owner} (hn : (Part.code source).Means n) (pos : Pos) (value : Value) :
    n ≠ .literal pos value := by
  obtain ⟨-, m, hm, hliteral⟩ := h
  have hclosed : ∀ other, Part.code source = .code other → Closes other := by
    rintro other hother
    cases hother
    exact IsSource.closes ⟨m, hm⟩
  have hgives := (gives_iff_means hclosed m).mp ⟨m, hm, rfl⟩
  exact Node.not_literal_of_unplaced (Except.ok.inj (hgives.symm.trans hn)) hliteral pos value

/-- Escaping the texts of a row leaves a row. -/
theorem Row.escape {P : List Char → Prop} {parts : List Part} (h : Row P parts) :
    Row P (parts.map Part.escape) := by
  induction h with
  | nil => exact .nil
  | code hsource _ ih => exact .code hsource ih
  | last hne => exact .last (escapeQuotes_ne_nil hne)
  | text hne hdollar _ ih =>
    exact .text (escapeQuotes_ne_nil hne) (by rwa [getLast?_escapeQuotes]) ih

/-- **What parts are quoted as can stand between quotes.** -/
theorem isBody_quote {parts : List Part}
    (h : ∀ source, .code source ∈ parts → IsBody source) : IsBody (quote parts) := by
  induction parts with
  | nil => exact .nil
  | cons part rest ih =>
    have hrest := ih fun source hmem => h source (List.mem_cons_of_mem _ hmem)
    have hpart : IsBody part.escape.render := by
      cases part with
      | text chars =>
        show IsBody (escapeOpen (escapeQuotes chars))
        rw [escapeOpen_escapeQuotes]
        exact isBody_escapeQuotes _
      | code source =>
        have hsource := (h source List.mem_cons_self).append
          (.plain (by decide) (by decide) .nil : IsBody ['\x7d'])
        exact .plain (by decide) (by decide) (.plain (by decide) (by decide) hsource)
    exact hpart.append hrest

/-! ### Reading string literals -/

theorem readPhrase_stringLiteral {body : List Char} (h : IsBody body) (offset : Nat) :
    readPhrase offset (stringLiteral body) = .ok (.quoted offset body) := by
  have hread : readToken .operator (stringLiteral body) = some (.quoted body, []) := by
    simp [stringLiteral, readToken, readQuoted_body h]
  have hcut : Cut offset (stringLiteral body) [⟨.quoted body, offset⟩] :=
    .token (readToken_eq_some_iff.mp hread) (.done _)
  have hatom : Derives .atom (.quoted offset body) [⟨.quoted body, offset⟩] :=
    ⟨.quoted offset body, rfl, rfl⟩
  exact readPhrase_eq_ok_iff.mpr ⟨_, hcut, hatom.loosen .expr (by decide)⟩

theorem expression_stringLiteral {body : List Char} (h : IsBody body) {locate : Nat → Pos}
    {string : Nat → List Char → Except ParseFailure (Node Owner)} (offset : Nat) :
    expression locate string offset (stringLiteral body) = string (offset + 1) body := by
  rw [expression_of_readPhrase rfl (readPhrase_stringLiteral h offset), Node.ofPhrase]

/-- Undoing the escapes in the nodes of escaped parts gives the nodes of the parts. -/
theorem exists_mapM_unescapePart {parts : List Part} {nodes : List (Node Owner)}
    (hcode : ∀ source, .code source ∈ parts → IsEmbedded Owner source)
    (h : List.Forall₂ Part.Means (parts.map Part.escape) nodes) :
    ∃ decoded, nodes.mapM unescapePart = .ok decoded ∧ List.Forall₂ Part.Means parts decoded := by
  induction parts generalizing nodes with
  | nil =>
    cases h
    exact ⟨[], rfl, .nil⟩
  | cons part rest ih =>
    obtain ⟨n, others, hn, hothers, rfl⟩ := List.forall₂_cons_left_iff.mp h
    obtain ⟨decoded, hdecoded, hrest⟩ :=
      ih (fun source hmem => hcode source (List.mem_cons_of_mem _ hmem)) hothers
    have hpart : ∃ d, unescapePart n = .ok d ∧ part.Means d := by
      cases part with
      | text chars =>
        obtain ⟨pos, rfl⟩ := hn
        refine ⟨_, rfl, pos, ?_⟩
        rw [String.toList_ofList, unescape_escapeQuotes]
      | code source =>
        refine ⟨n, ?_, hn⟩
        have hliteral := (hcode source List.mem_cons_self).not_literal hn
        cases n with
        | literal pos value => exact absurd rfl (hliteral pos value)
        | _ => rfl
    obtain ⟨d, hd, hmeans⟩ := hpart
    refine ⟨d :: decoded, ?_, .cons hmeans hrest⟩
    rw [List.mapM_cons]
    exact bind_eq_ok.mpr ⟨d, hd, bind_eq_ok.mpr ⟨decoded, hdecoded, rfl⟩⟩

/-- A literal is made of text alone, and everything else is a template of its own. -/
theorem exists_closeString {parts : List Part} {nodes decoded : List (Node Owner)}
    (hcode : ∀ source, .code source ∈ parts → IsEmbedded Owner source)
    (hdecoded : nodes.mapM unescapePart = .ok decoded)
    (h : List.Forall₂ Part.Means parts decoded) (pos : Pos) :
    ∃ n, closeString pos nodes = .ok n ∧ Decodes parts n := by
  have hgives : List.Forall₂ Part.Gives parts decoded :=
    (forall₂_gives_iff fun source hmem => (hcode source hmem).isSource.closes).mpr h
  rw [closeString, hdecoded]
  cases h with
  | nil => exact ⟨_, rfl, pos, rfl⟩
  | @cons part n rest others hn hrest =>
    cases hrest with
    | nil =>
      cases part with
      | text chars =>
        obtain ⟨place, rfl⟩ := hn
        exact ⟨_, rfl, place, rfl⟩
      | code source =>
        have hliteral := (hcode source List.mem_cons_self).not_literal hn
        refine ⟨.output pos [n], ?_, pos, [n], rfl, hgives⟩
        cases n with
        | literal place value => exact absurd rfl (hliteral place value)
        | _ => rfl
    | @cons _ second _ more =>
      refine ⟨.output pos (n :: second :: more), by cases n <;> rfl, ?_⟩
      cases part <;> exact ⟨pos, _, rfl, hgives⟩

/-- The body that parts are quoted as is read as the parts. -/
theorem exists_ofString_quote {parts : List Part} (h : Row (IsEmbedded Owner) parts)
    (locate : Nat → Pos) {level : Nat} (hlevel : (quote parts).length ≤ level) (offset : Nat) :
    ∃ n : Node Owner, ofString locate (level + 1) offset (quote parts) = .ok n ∧
      Decodes parts n := by
  have hcode := h.forall_code
  have hmem : ∀ {source}, .code source ∈ parts.map Part.escape → .code source ∈ parts := by
    intro source hsource
    obtain ⟨part, hpart, heq⟩ := List.mem_map.mp hsource
    cases part with
    | text chars => cases heq
    | code other =>
      cases heq
      exact hpart
  have hlength : ∀ source, .code source ∈ parts.map Part.escape → source.length ≤ level :=
    fun source hsource => (length_le_render hsource).trans hlevel
  -- to the cut the escaped texts are texts like any others
  have hsplit : Piece.split offset (quote parts) = pieces offset (parts.map Part.escape) :=
    split_render (h.mono fun source _ hsource => hsource.isSource.closes).escape offset
  obtain ⟨nodes, hnodes⟩ : ∃ nodes : List (Node Owner), ofPieces locate (ofString locate level)
      (pieces offset (parts.map Part.escape)) = .ok nodes :=
    exists_ofPieces hlength fun source hsource => (hcode source (hmem hsource)).isSource.meaning
  obtain ⟨decoded, hdecoded, hmeans⟩ :=
    exists_mapM_unescapePart hcode (means_of_ofPieces hlength hnodes)
  obtain ⟨n, hn, hdecodes⟩ := exists_closeString hcode hdecoded hmeans (locate offset)
  refine ⟨n, ?_, hdecodes⟩
  rw [ofString, hsplit]
  exact bind_eq_ok.mpr ⟨nodes, hnodes, hn⟩

/-- **A string literal is read as the parts that are quoted in it.**  Texts may hold any
characters, and the expressions between them are read as they are on their own. -/
theorem parse_quoted {parts : List Part} (h : Row (IsEmbedded Owner) parts) (start : Pos) :
    ∃ n : Node Owner,
      parse (String.ofList (interpolation (stringLiteral (quote parts)))) start =
        .ok (.output start [n]) ∧ Decodes parts n := by
  have hbody : IsBody (quote parts) :=
    isBody_quote fun source hmem => (h.forall_code source hmem).isBody
  have hrow : Row Closes [.code (stringLiteral (quote parts))] :=
    .code (closes_stringLiteral hbody) .nil
  have hlength : (interpolation (stringLiteral (quote parts))).length =
      (quote parts).length + 4 + 1 := by
    simp [interpolation, stringLiteral]
  obtain ⟨n, hn, hdecodes⟩ := exists_ofString_quote h
    (start.locate (interpolation (stringLiteral (quote parts))))
    (Nat.le_add_right (quote parts).length 4) 3
  refine ⟨n, parse_eq_ok_iff.mpr ⟨[n], ?_, rfl⟩, hdecodes⟩
  rw [String.toList_ofList, ← render_code, split_render hrow, render_code, hlength]
  refine bind_eq_ok.mpr ⟨n, ?_, rfl⟩
  exact (expression_stringLiteral hbody 2).trans hn

/-- Text with a quote, a backslash at its end and an opening, around an expression. -/
private def mixed : List Part :=
  [.text "\\\"$\x7b\\".toList, .code "n + 1".toList, .text "\"".toList]

theorem parse_quoted_mixed : ∃ n : Node Empty,
    parse "$\x7b\"\\\\\\\"$$\x7b\\\\$\x7bn + 1\x7d\\\"\"\x7d" ⟨"", 1, 1⟩ =
      .ok (.output ⟨"", 1, 1⟩ [n]) ∧ Decodes mixed n := by
  have hcode : IsEmbedded Empty "n + 1".toList :=
    ⟨by decide,
      .binary ⟨"", 1, 3⟩ .add (.access none ⟨"", 1, 3⟩ "n") (.literal ⟨"", 1, 7⟩ (.int 1)),
      by with_unfolding_all rfl, by simp⟩
  have hrow : Row (IsEmbedded Empty) mixed :=
    .text (by simp) (by decide) (.code hcode (.last (by simp)))
  exact parse_quoted hrow ⟨"", 1, 1⟩

end Interpolation.Template
