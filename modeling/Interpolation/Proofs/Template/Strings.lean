/-
The string literals in a template.

* `Phrase.strings`, `Stretch.literals` — the bodies of the string literals in an expression,
  and in the expressions of a template, with the offsets at which they begin;
* `Phrase.induction_strings` — to prove something of a phrase from what holds of its string
  literals, prove it of a phrase from what holds of its parts;
* `ofPhrase_congr`, `ofPieces_congr` — nodes depend on what is read of these string literals
  and of no others;
* `Stretch.inside_of_mem_literals` — the body of a string literal is strictly inside the
  template.

Design notes: what is read of a string literal is a parameter of the reader, which could be
asked about any text.  The string literals of a template are listed here without reading
their bodies, so that the list says what the reader is asked about.  The offset is a part of
the question, since it decides on the positions of the nodes.
-/
import Interpolation.Proofs.Template.Sites

namespace Interpolation.Template

/-! ### Stretches -/

/-- A stretch of a text and the offset at which it begins. -/
structure Stretch where
  offset : Nat
  chars : List Char
  deriving DecidableEq, Repr

namespace Stretch

/-- A stretch is strictly inside another one: there is text before it and behind it. -/
def Inside (inner outer : Stretch) : Prop :=
  ∃ before after, before ≠ [] ∧ after ≠ [] ∧
    outer.chars = before ++ inner.chars ++ after ∧ inner.offset = outer.offset + before.length

theorem Inside.length_lt {inner outer : Stretch} (h : inner.Inside outer) :
    inner.chars.length < outer.chars.length := by
  obtain ⟨before, after, hbefore, -, hchars, -⟩ := h
  have hpos := List.length_pos_iff.mpr hbefore
  rw [hchars, List.length_append, List.length_append]
  omega

theorem Inside.trans {inner middle outer : Stretch} (h : inner.Inside middle)
    (hmiddle : middle.Inside outer) : inner.Inside outer := by
  obtain ⟨before, after, hbefore, -, hchars, hoffset⟩ := h
  obtain ⟨first, last, -, hlast, hchars', hoffset'⟩ := hmiddle
  refine ⟨first ++ before, after ++ last, List.append_ne_nil_of_right_ne_nil _ hbefore,
    List.append_ne_nil_of_right_ne_nil _ hlast, ?_, ?_⟩
  · rw [hchars', hchars]
    simp only [List.append_assoc]
  · rw [hoffset, hoffset', List.length_append, Nat.add_assoc]

/-- A stretch stands in another one between two characters. -/
def Between (left right : Char) (inner outer : Stretch) : Prop :=
  ∃ before after, outer.chars = before ++ left :: (inner.chars ++ right :: after) ∧
    inner.offset = outer.offset + before.length + 1

section Between

variable {left right : Char}

theorem Between.behind {inner : Stretch} {offset : Nat} {chars : List Char} (front : List Char)
    (h : Between left right inner ⟨offset + front.length, chars⟩) :
    Between left right inner ⟨offset, front ++ chars⟩ := by
  obtain ⟨before, after, rfl, hoffset⟩ := h
  refine ⟨front ++ before, after, (List.append_assoc _ _ _).symm, ?_⟩
  rw [hoffset, List.length_append, ← Nat.add_assoc]

theorem Between.inside {inner outer : Stretch} (h : Between left right inner outer) :
    inner.Inside outer := by
  obtain ⟨before, after, hchars, hoffset⟩ := h
  refine ⟨before ++ [left], right :: after, by simp, by simp, by simp [hchars], ?_⟩
  rw [hoffset, List.length_append, List.length_singleton, Nat.add_assoc]

end Between

end Stretch

/-! ### String literals of an expression -/

namespace Phrase

mutual

/-- The bodies of the string literals in a phrase, in order. -/
def strings : Phrase → List Stretch
  | .number .. | .bool .. | .name .. => []
  | .quoted offset body => [⟨offset + 1, body⟩]
  | .call _ _ arguments => argumentStrings arguments
  | .group _ inner => inner.strings
  | .index target key => target.strings ++ key.strings
  | .unary _ _ operand => operand.strings
  | .binary _ left right => left.strings ++ right.strings
  | .conditional condition yes no => condition.strings ++ (yes.strings ++ no.strings)

def argumentStrings : List Phrase → List Stretch
  | [] => []
  | argument :: rest => argument.strings ++ argumentStrings rest

end

theorem argumentStrings_eq_flatMap (arguments : List Phrase) :
    argumentStrings arguments = arguments.flatMap strings := by
  induction arguments with
  | nil => rw [argumentStrings, List.flatMap_nil]
  | cons argument rest ih => rw [argumentStrings, ih, List.flatMap_cons]

/-- Induction on a phrase, for what depends on the string literals in it. -/
@[elab_as_elim]
theorem induction_strings {P : Stretch → Prop} {motive : Phrase → Prop}
    (number : ∀ offset digits, motive (.number offset digits))
    (bool : ∀ offset b, motive (.bool offset b))
    (quoted : ∀ offset body, P ⟨offset + 1, body⟩ → motive (.quoted offset body))
    (name : ∀ offset text, motive (.name offset text))
    (call : ∀ offset function arguments, (∀ a ∈ arguments, motive a) →
      motive (.call offset function arguments))
    (group : ∀ offset inner, motive inner → motive (.group offset inner))
    (index : ∀ target key, motive target → motive key → motive (.index target key))
    (unary : ∀ offset op operand, motive operand → motive (.unary offset op operand))
    (binary : ∀ op left right, motive left → motive right → motive (.binary op left right))
    (conditional : ∀ condition yes no, motive condition → motive yes → motive no →
      motive (.conditional condition yes no))
    (p : Phrase) (h : ∀ s ∈ p.strings, P s) : motive p := by
  -- the string literals of a part are among those of the phrase
  induction p with
  | number offset digits => exact number offset digits
  | bool offset b => exact bool offset b
  | quoted offset body => exact quoted offset body (h _ (by simp [strings]))
  | name offset text => exact name offset text
  | call offset function arguments ih =>
    rw [strings, argumentStrings_eq_flatMap, List.forall_mem_flatMap] at h
    exact call offset function arguments fun a ha => ih a ha (h a ha)
  | group offset inner ih =>
    rw [strings] at h
    exact group offset inner (ih h)
  | index target key iht ihk =>
    rw [strings, List.forall_mem_append] at h
    exact index target key (iht h.1) (ihk h.2)
  | unary offset op operand ih =>
    rw [strings] at h
    exact unary offset op operand (ih h)
  | binary op left right ihl ihr =>
    rw [strings, List.forall_mem_append] at h
    exact binary op left right (ihl h.1) (ihr h.2)
  | conditional condition yes no ihc ihy ihn =>
    rw [strings, List.forall_mem_append, List.forall_mem_append] at h
    exact conditional condition yes no (ihc h.1) (ihy h.2.1) (ihn h.2.2)

end Phrase

/-- The body of a token that is a string literal. -/
def Lexeme.strings : Lexeme → List Stretch
  | ⟨.quoted body, offset⟩ => [⟨offset + 1, body⟩]
  | _ => []

mutual

/-- The string literals of a phrase are those among its tokens. -/
theorem Derivation.strings_phrase {r : Rule} :
    (d : Derivation r) → d.phrase.strings = d.yield.flatMap Lexeme.strings
  | .tighter _ d => d.strings_phrase
  | .conditional condition _ yes _ no => by
    simp [Derivation.phrase, Derivation.yield, Phrase.strings, Lexeme.strings,
      condition.strings_phrase, yes.strings_phrase, no.strings_phrase]
  | .binary _ _ left _ right => by
    simp [Derivation.phrase, Derivation.yield, Phrase.strings, Lexeme.strings,
      left.strings_phrase, right.strings_phrase]
  | .unary op _ operand => by
    cases op <;> simp [Derivation.phrase, Derivation.yield, Phrase.strings, Phrase.unaryToken,
      Lexeme.strings, operand.strings_phrase]
  | .index target _ key _ => by
    simp [Derivation.phrase, Derivation.yield, Phrase.strings, Lexeme.strings,
      target.strings_phrase, key.strings_phrase]
  | .number .. | .bool .. | .quoted .. | .name .. => rfl
  | .callEmpty .. => rfl
  | .call _ _ _ arguments _ => by
    simp [Derivation.phrase, Derivation.yield, Phrase.strings, Lexeme.strings,
      Phrase.argumentStrings_eq_flatMap, arguments.strings_phrases]
  | .group _ inner _ => by
    simp [Derivation.phrase, Derivation.yield, Phrase.strings, Lexeme.strings,
      inner.strings_phrase]

theorem Arguments.strings_phrases : (arguments : Arguments) →
    arguments.phrases.flatMap Phrase.strings = arguments.yield.flatMap Lexeme.strings
  | .one argument => by
    simp [Arguments.phrases, Arguments.yield, argument.strings_phrase]
  | .more before _ last => by
    simp [Arguments.phrases, Arguments.yield, Lexeme.strings, before.strings_phrases,
      last.strings_phrase]

end

/-- Where a string literal of a phrase is, a token is one. -/
theorem quoted_mem_yield {r : Rule} {d : Derivation r} {s : Stretch} (h : s ∈ d.phrase.strings) :
    ∃ offset, ⟨.quoted s.chars, offset⟩ ∈ d.yield ∧ s.offset = offset + 1 := by
  rw [d.strings_phrase] at h
  obtain ⟨⟨token, offset⟩, hl, hs⟩ := List.mem_flatMap.mp h
  cases token with
  | quoted body =>
    obtain rfl := List.mem_singleton.mp hs
    exact ⟨offset, hl, rfl⟩
  | _ => cases hs

theorem quoted_mem_tokens {offset : Nat} {source : List Char} {p : Phrase}
    (h : readPhrase offset source = .ok p) {s : Stretch} (hs : s ∈ p.strings) :
    .quoted s.chars ∈ p.tokens := by
  obtain ⟨_, -, d, rfl, rfl⟩ := readPhrase_eq_ok_iff.mp h
  obtain ⟨place, hl, -⟩ := quoted_mem_yield hs
  rw [d.tokens_phrase]
  exact List.mem_map_of_mem hl

/-- **The string literals in an expression stand in its source between quotes.** -/
theorem between_quotes {offset : Nat} {source : List Char} {p : Phrase}
    (h : readPhrase offset source = .ok p) {s : Stretch} (hs : s ∈ p.strings) :
    IsBody s.chars ∧ Stretch.Between '"' '"' s ⟨offset, source⟩ := by
  obtain ⟨_, hcut, d, rfl, rfl⟩ := readPhrase_eq_ok_iff.mp h
  obtain ⟨place, hl, hplace⟩ := quoted_mem_yield hs
  obtain ⟨hspelled, before, after, hsource, hoffset⟩ := hcut.stands _ hl
  refine ⟨hspelled, before, after, by simp [hsource, Token.text], ?_⟩
  rw [hplace]
  exact congrArg (· + 1) hoffset

/-! ### String literals of a template -/

/-- The string literals in the expression of a piece; nothing is read of what is no
expression. -/
def Piece.literals : Piece → List Stretch
  | .code offset source =>
    match readPhrase offset source with
    | .ok p => p.strings
    | .error _ => []
  | _ => []

/-- The string literals in the expressions of a template. -/
def Stretch.literals (template : Stretch) : List Stretch :=
  (Piece.split template.offset template.chars).flatMap Piece.literals

theorem Piece.mem_literals {piece : Piece} {s : Stretch} (h : s ∈ piece.literals) :
    ∃ place source p, piece = .code place source ∧ readPhrase place source = .ok p ∧
      s ∈ p.strings := by
  cases piece with
  | text | unclosed => cases h
  | code place source =>
    rw [literals] at h
    cases hread : readPhrase place source with
    | error e =>
      rw [hread] at h
      cases h
    | ok p =>
      rw [hread] at h
      exact ⟨place, source, p, rfl, hread, h⟩

/-- Putting text in front changes no other pieces. -/
theorem Piece.mem_addText {offset : Nat} {chars : List Char} {pieces : List Piece} {piece : Piece}
    (h : ∀ place more, piece ≠ .text place more) :
    piece ∈ addText offset chars pieces ↔ piece ∈ pieces := by
  cases pieces with
  | nil => simp [addText, h]
  | cons first rest => cases first <;> simp [addText, h]

/-- **The source of an interpolation stands in the template between braces.** -/
theorem Piece.between_braces {offset place : Nat} {chars source : List Char}
    (h : .code place source ∈ split offset chars) :
    Stretch.Between '\x7b' '\x7d' ⟨place, source⟩ ⟨offset, chars⟩ := by
  fun_induction split offset chars with
  | case1 => cases h
  | case2 offset cs ih =>
    exact Stretch.Between.behind ['$', '$', '\x7b'] (ih ((mem_addText (by simp)).mp h))
  | case3 => simp at h
  | case4 offset cs first rest hopen ih =>
    rw [takeCode_close hopen]
    rcases List.mem_cons.mp h with heq | hrest
    · cases heq
      exact ⟨['$'], rest, rfl, rfl⟩
    · -- a later interpolation stands behind this one and its braces
      have hbehind : offset + 2 + first.length + 1 =
          offset + ('$' :: '\x7b' :: first ++ ['\x7d']).length := by
        simp
        omega
      have ih := ih hrest
      rw [hbehind] at ih
      simpa using Stretch.Between.behind _ ih
  | case5 offset c cs _ _ ih =>
    exact Stretch.Between.behind [c] (ih ((mem_addText (by simp)).mp h))

/-- **The body of a string literal is strictly inside the template.** -/
theorem Stretch.inside_of_mem_literals {template s : Stretch} (h : s ∈ template.literals) :
    IsBody s.chars ∧ s.Inside template := by
  obtain ⟨piece, hpiece, hs⟩ := List.mem_flatMap.mp h
  obtain ⟨place, source, p, rfl, hread, hs⟩ := Piece.mem_literals hs
  obtain ⟨hbody, hquotes⟩ := between_quotes hread hs
  exact ⟨hbody, hquotes.inside.trans (Piece.between_braces hpiece).inside⟩

/-! ### What is asked about -/

section Congr

variable {Owner : Type} {locate : Nat → Pos}
  {string string' : Nat → List Char → Except ParseFailure (Node Owner)}

theorem Node.ofArguments_congr {arguments : List Phrase}
    (h : ∀ a ∈ arguments, ofPhrase locate string a = ofPhrase locate string' a) :
    ofArguments locate string arguments = ofArguments locate string' arguments := by
  induction arguments with
  | nil => rw [ofArguments, ofArguments]
  | cons a rest ih =>
    obtain ⟨ha, hrest⟩ := List.forall_mem_cons.mp h
    rw [ofArguments, ofArguments, ha, ih hrest]

/-- **The node of a phrase depends on the string literals in it only.** -/
theorem Node.ofPhrase_congr {p : Phrase}
    (h : ∀ s ∈ p.strings, string s.offset s.chars = string' s.offset s.chars) :
    ofPhrase locate string p = ofPhrase locate string' p := by
  refine Phrase.induction_strings ?number ?bool ?quoted ?name ?call ?group ?index ?unary ?binary
    ?conditional p h
  case number | bool | name =>
    intros
    rw [ofPhrase, ofPhrase]
  case quoted =>
    intro offset body hbody
    rw [ofPhrase, ofPhrase]
    exact hbody
  case call =>
    intro offset function arguments ih
    rw [ofPhrase, ofPhrase, ofArguments_congr ih]
  case group =>
    intro offset inner ih
    rw [ofPhrase_group, ofPhrase_group, ih]
  case index =>
    intro target key iht ihk
    rw [ofPhrase, ofPhrase, iht, ihk]
  case unary =>
    intro offset op operand ih
    rw [ofPhrase, ofPhrase, ih]
  case binary =>
    intro op left right ihl ihr
    rw [ofPhrase, ofPhrase, ihl, ihr]
  case conditional =>
    intro condition yes no ihc ihy ihn
    rw [ofPhrase, ofPhrase, ihc, ihy, ihn]

theorem ofPiece_congr {piece : Piece}
    (h : ∀ s ∈ piece.literals, string s.offset s.chars = string' s.offset s.chars) :
    ofPiece locate string piece = ofPiece locate string' piece := by
  cases piece with
  | text | unclosed => rfl
  | code place source =>
    rw [ofPiece, ofPiece, expression, expression]
    rw [Piece.literals] at h
    cases hread : readPhrase place source with
    | error e => rfl
    | ok p =>
      rw [hread] at h
      simp only [Node.ofPhrase_congr h]

/-- **The parts of a template depend on the string literals in its expressions only.** -/
theorem ofPieces_congr {pieces : List Piece}
    (h : ∀ s ∈ pieces.flatMap Piece.literals, string s.offset s.chars = string' s.offset s.chars) :
    ofPieces locate string pieces = ofPieces locate string' pieces := by
  induction pieces with
  | nil => rfl
  | cons piece rest ih =>
    rw [List.flatMap_cons, List.forall_mem_append] at h
    rw [ofPieces, ofPieces, ofPiece_congr h.1, ih h.2]

end Congr

end Interpolation.Template
