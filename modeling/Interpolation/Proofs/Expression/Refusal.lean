/-
What reading a template fails with.

* `ofPhrase_refused`, `ofString_refused` — a failure to undo escapes comes from a string
  literal in which a number or a bool stands by itself;
* `parse_outcome` — reading gives an expression or a single error, unless there is such a
  string literal.

Design notes: the literals between the interpolations of a string literal have their escapes
undone, and an interpolation that is read as a literal is taken for one of them.  Only text
can be treated so, and what is reported of a number or a bool is no error in the text.  Which
literals those are can be told from the phrase (`bareKind?`).
-/
import Interpolation.Evaluation.Coercion
import Interpolation.Expression
import Interpolation.Proofs.Template.Relocation

namespace Interpolation

namespace Template

variable {Owner : Type} {locate : Nat → Pos}
  {string : Nat → List Char → Except ParseFailure (Node Owner)}

/-- The kind of an expression that is a number or a bool and nothing else, perhaps in
parentheses. -/
def Phrase.bareKind? : Phrase → Option Kind
  | .number _ digits => (Number.ofUnsigned? false digits).map fun n => (Value.ofNumber n).kind
  | .bool .. => some .bool
  | .group _ inner => inner.bareKind?
  | _ => none

/-- In the body of a string literal a number or a bool of a kind stands by itself. -/
def Unescapable (kind : Kind) (body : List Char) : Prop :=
  ∃ offset place source p, .code place source ∈ Piece.split offset body ∧
    readPhrase place source = .ok p ∧ p.bareKind? = some kind

/-- A template has a string literal somewhere in which a number or a bool of a kind stands by
itself. -/
inductive Spoiled (kind : Kind) : List Char → Prop where
  | here {offset place : Nat} {cs source body : List Char} {p : Phrase}
    (hcode : .code place source ∈ Piece.split offset cs) (hread : readPhrase place source = .ok p)
    (hbody : .quoted body ∈ p.tokens) (h : Unescapable kind body) : Spoiled kind cs
  | inside {offset place : Nat} {cs source body : List Char} {p : Phrase}
    (hcode : .code place source ∈ Piece.split offset cs) (hread : readPhrase place source = .ok p)
    (hbody : .quoted body ∈ p.tokens) (h : Spoiled kind body) : Spoiled kind cs

/-! ### Where escapes cannot be undone -/

/-- If a part of some kind is why undoing escapes failed, the kind has a property. -/
def Refused (S : Kind → Prop) : ParseFailure → Prop
  | .malformed _ => True
  | .notText kind => S kind

theorem Refused.mono {S S' : Kind → Prop} {e : ParseFailure} (h : Refused S e)
    (hS : ∀ kind, S kind → S' kind) : Refused S' e := by
  cases e with
  | malformed e => trivial
  | notText kind => exact hS kind h

/-- If a node is a literal, it is text or of a kind that has a property. -/
def Node.LiteralOf (S : Kind → Prop) (n : Node Owner) : Prop :=
  ∀ place v, n = .literal place v → v.kind = .string ∨ S v.kind

theorem unescapePart_refused {S : Kind → Prop} {part : Node Owner} (h : part.LiteralOf S) :
    Ends (Refused S) (Node.LiteralOf fun _ => False) (unescapePart part) := by
  unfold unescapePart
  split
  · rintro _ _ ⟨⟩
    exact .inl rfl
  · next pos v hnot =>
    rcases h _ _ rfl with htext | hkind
    · cases v with
      | text s => exact absurd rfl (hnot s)
      | _ => cases htext
    · exact hkind
  · next hnone =>
    rintro place v rfl
    exact absurd rfl (hnone place v)

theorem closeString_refused {S : Kind → Prop} {pos : Pos} {parts : List (Node Owner)}
    (h : ∀ part ∈ parts, part.LiteralOf S) :
    Ends (Refused S) (Node.LiteralOf fun _ => False) (closeString pos parts) := by
  refine (Ends.mapM fun part hpart => unescapePart_refused (h part hpart)).bind
    fun closed hclosed => ?_
  split
  · rintro _ _ ⟨⟩
    exact .inl rfl
  · exact hclosed _ (List.mem_singleton_self _)
  · rintro _ _ ⟨⟩

theorem ofArguments_refused {S : Kind → Prop} {arguments : List Phrase}
    (h : ∀ a ∈ arguments, Ends (Refused S) (fun _ => True) (Node.ofPhrase locate string a)) :
    Ends (Refused S) (fun _ => True) (Node.ofArguments locate string arguments) := by
  induction arguments with
  | nil => trivial
  | cons a rest ih =>
    obtain ⟨ha, hrest⟩ := List.forall_mem_cons.mp h
    rw [Node.ofArguments]
    exact ha.bind fun n _ => (ih hrest).bind fun nodes _ => trivial

/-- An expression is a literal only if it is a string literal, or a number or a bool. -/
theorem ofPhrase_refused {S : Kind → Prop} {p : Phrase}
    (hstring : ∀ s ∈ p.strings,
      Ends (Refused S) (Node.LiteralOf fun _ => False) (string s.offset s.chars)) :
    Ends (Refused S) (Node.LiteralOf fun kind => p.bareKind? = some kind)
      (Node.ofPhrase locate string p) := by
  -- an operand may be anything
  have hany : ∀ {T : Kind → Prop} {r : Except ParseFailure (Node Owner)},
      Ends (Refused S) (Node.LiteralOf T) r → Ends (Refused S) (fun _ => True) r :=
    fun h => h.mono (fun _ h => h) fun _ _ => trivial
  refine Phrase.induction_strings ?number ?bool ?quoted ?name ?call ?group ?index ?unary ?binary
    ?conditional p hstring
  case number =>
    intro offset digits
    rw [Node.ofPhrase, Node.ofNumber]
    split
    · next i hi =>
      rintro _ _ ⟨⟩
      exact .inr (by rw [Phrase.bareKind?, hi]; rfl)
    · next x hx =>
      rintro _ _ ⟨⟩
      exact .inr (by rw [Phrase.bareKind?, hx]; rfl)
    · trivial
  case bool =>
    intro offset b
    rw [Node.ofPhrase]
    rintro _ _ ⟨⟩
    exact .inr rfl
  case quoted =>
    intro offset body hbody
    rw [Node.ofPhrase]
    refine hbody.mono (fun _ h => h) fun n hn place v heq => ?_
    exact .inl ((hn place v heq).resolve_right id)
  case name =>
    intro offset text
    rw [Node.ofPhrase]
    rintro _ _ ⟨⟩
  case call =>
    intro offset function arguments ih
    rw [Node.ofPhrase]
    refine (ofArguments_refused fun a ha => hany (ih a ha)).bind fun nodes _ => ?_
    rintro _ _ ⟨⟩
  case group =>
    intro offset inner ih
    rw [Node.ofPhrase]
    exact ih
  case index =>
    intro target key iht ihk
    rw [Node.ofPhrase]
    refine (hany iht).bind fun t _ => (hany ihk).bind fun k _ => ?_
    rintro _ _ ⟨⟩
  case unary =>
    intro offset op operand ih
    rw [Node.ofPhrase]
    refine (hany ih).bind fun n _ => ?_
    rintro _ _ ⟨⟩
  case binary =>
    intro op left right ihl ihr
    rw [Node.ofPhrase]
    refine (hany ihl).bind fun l _ => (hany ihr).bind fun r _ => ?_
    rintro _ _ ⟨⟩
  case conditional =>
    intro condition yes no ihc ihy ihn
    rw [Node.ofPhrase]
    refine (hany ihc).bind fun c _ => (hany ihy).bind fun y _ => (hany ihn).bind fun n _ => ?_
    rintro _ _ ⟨⟩

/-- How string literals are read: if escapes cannot be undone, the body has a number or a
bool by itself, or has such a string literal in it. -/
def Tells (string : Nat → List Char → Except ParseFailure (Node Owner)) : Prop :=
  ∀ offset body, Ends (Refused fun kind => Unescapable kind body ∨ Spoiled kind body)
    (Node.LiteralOf fun _ => False) (string offset body)

theorem expression_refused (hstring : Tells string) {offset place : Nat} {cs source : List Char}
    (hcode : .code place source ∈ Piece.split offset cs) :
    Ends (Refused fun kind => Spoiled kind cs) (Node.LiteralOf fun kind => Unescapable kind cs)
      (expression locate string place source) := by
  unfold expression
  split
  · trivial
  · cases hread : readPhrase place source with
    | error e => trivial
    | ok p =>
      have hp : Ends (Refused fun kind => Spoiled kind cs)
          (Node.LiteralOf fun kind => p.bareKind? = some kind)
          (Node.ofPhrase locate string p) := by
        refine ofPhrase_refused fun s hs => ?_
        have hbody : .quoted s.chars ∈ p.tokens := quoted_mem_tokens hread hs
        refine (hstring s.offset s.chars).mono (fun e he => he.mono fun kind hkind => ?_)
          fun _ h => h
        rcases hkind with hhere | hinside
        · exact .here hcode hread hbody hhere
        · exact .inside hcode hread hbody hinside
      refine hp.mono (fun _ h => h) fun n hn pos v heq => ?_
      exact (hn pos v heq).imp_right fun hkind => ⟨offset, place, source, p, hcode, hread, hkind⟩

theorem ofPieces_refused (hstring : Tells string) {offset : Nat} {cs : List Char}
    {pieces : List Piece} (h : ∀ piece ∈ pieces, piece ∈ Piece.split offset cs) :
    Ends (Refused fun kind => Spoiled kind cs)
      (fun nodes => ∀ n ∈ nodes, n.LiteralOf fun kind => Unescapable kind cs)
      (ofPieces locate string pieces) := by
  induction pieces with
  | nil => exact fun _ h => nomatch h
  | cons piece rest ih =>
    obtain ⟨hmem, hrest⟩ := List.forall_mem_cons.mp h
    have hpiece : Ends (Refused fun kind => Spoiled kind cs)
        (Node.LiteralOf fun kind => Unescapable kind cs) (ofPiece locate string piece) := by
      cases piece with
      | text place chars =>
        rintro _ _ ⟨⟩
        exact .inl rfl
      | code place source => exact expression_refused hstring hmem
      | unclosed place => trivial
    rw [ofPieces]
    refine hpiece.bind fun n hn => (ih hrest).bind fun nodes hnodes => ?_
    exact List.forall_mem_cons.mpr ⟨hn, hnodes⟩

/-- **Escapes that cannot be undone are next to a number or a bool by itself.** -/
theorem ofString_refused (locate : Nat → Pos) (level : Nat) :
    Tells (ofString locate level : _ → _ → Except ParseFailure (Node Owner)) := by
  induction level with
  | zero =>
    rintro offset body _ _ ⟨⟩
    exact .inl rfl
  | succ level ih =>
    intro offset body
    rw [ofString]
    refine ((ofPieces_refused ih fun piece h => h).mono
      (fun e he => he.mono fun kind => .inr) fun _ h => h).bind fun parts hparts => ?_
    exact (closeString_refused hparts).mono (fun e he => he.mono fun kind => .inl) fun _ h => h

theorem parse_refused (text : String) (start : Pos) :
    Ends (Refused fun kind => Spoiled kind text.toList)
      (fun n : Node Owner => ∃ parts, n = .output start parts) (parse text start) := by
  unfold parse
  refine (ofPieces_refused (ofString_refused _ _) fun piece h => h).bind fun parts _ => ?_
  exact ⟨parts, rfl⟩

end Template

namespace Expression

open Config (Range)
open Template (Node ParseFailure Spoiled)

/-- **Reading succeeds or reports an error of the text**, unless a number or a bool stands by
itself in a string literal.  Then neither an expression nor a report comes of it. -/
theorem parse_outcome (text : String) :
    (∀ start : Template.Pos,
      (∃ parts, Template.parse text start = .ok (.output start parts : Node Origin)) ∨
      (∃ e, (Template.parse text start : Except ParseFailure (Node Origin)) =
        .error (.malformed e)) ∨
      ∃ kind, (Template.parse text start : Except ParseFailure (Node Origin)) =
        .error (.notText kind) ∧ Spoiled kind text.toList) ∧
    ∀ (file : String) (start : Config.Pos) (interpret : String → Range → Lookup),
      (∃ e, parse text file start interpret = .ok (.ok e)) ∨
      (∃ summary detail subject,
        parse text file start interpret = .ok (.error [.error summary detail subject])) ∨
      ∃ kind, parse text file start interpret = .error kind ∧ Spoiled kind text.toList := by
  constructor
  · intro start
    have hends : Ends _ (fun n : Node Origin => _) _ := Template.parse_refused text start
    cases hparse : (Template.parse text start : Except ParseFailure (Node Origin)) with
    | ok n =>
      rw [hparse] at hends
      obtain ⟨parts, rfl⟩ := hends
      exact .inl ⟨parts, rfl⟩
    | error e =>
      rw [hparse] at hends
      cases e with
      | malformed e => exact .inr (.inl ⟨e, rfl⟩)
      | notText kind => exact .inr (.inr ⟨kind, rfl, hends⟩)
  · intro file start interpret
    have hends : Ends _ (fun n : Node Origin => _) _ :=
      Template.parse_refused text (toTemplatePos file start)
    unfold parse
    dsimp only
    cases hparse : (Template.parse text (toTemplatePos file start) :
        Except ParseFailure (Node Origin)) with
    | ok n => exact .inl ⟨_, rfl⟩
    | error e =>
      rw [hparse] at hends
      cases e with
      | malformed e => exact .inr (.inl ⟨_, _, _, rfl⟩)
      | notText kind => exact .inr (.inr ⟨kind, rfl, hends⟩)

/-- Nothing comes of `${"a${1}"}`. -/
theorem parse_numberInString :
    (Template.parse "$\x7b\"a$\x7b1\x7d\"\x7d" ⟨"", 1, 1⟩ : Except ParseFailure (Node Origin)) =
        .error (.notText .int) ∧
      parse "$\x7b\"a$\x7b1\x7d\"\x7d" "" .initial interpretName = .error .int := by
  constructor
  · with_unfolding_all rfl
  · with_unfolding_all rfl

end Expression

end Interpolation
