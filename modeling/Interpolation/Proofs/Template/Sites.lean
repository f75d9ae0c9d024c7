/-
Where the nodes of a template and the errors in it are.

* `tokens_standIn` — every token stands in the text at its offset;
* `split_sits` — so does every piece of a template;
* `parse_sits` — every node starts, and every error is, at a character of the text that is
  no line feed behind a carriage return; and there the names are written.

Design notes: white space is skipped, so the tokens of an expression never begin with a line
feed.  Literal text can, but it begins behind a brace or a quote or where the template
does.  Everything is said of the whole text, in which the body of a string literal is a part
like any other (`Embedded`).
-/
import Interpolation.Proofs.Outcome
import Interpolation.Proofs.Template.Recognition

namespace Interpolation.Template

variable {Owner : Type} {cs : List Char}

/-! ### Offsets into a text -/

/-- Something may start at an offset: a character is there, and it is no line feed behind a
carriage return. -/
def Startable (cs : List Char) (offset : Nat) : Prop :=
  ∃ before c after, cs = before ++ c :: after ∧ before.length = offset ∧
    (c = '\n' → before.getLast? ≠ some '\r')

/-- A text stands in another one at an offset. -/
def StandsAt (cs : List Char) (offset : Nat) (part : List Char) : Prop :=
  ∃ before after, cs = before ++ part ++ after ∧ before.length = offset

/-- A part of a text at an offset, with the given text behind it and no carriage return
before it. -/
def Embedded (cs : List Char) (offset : Nat) (part after : List Char) : Prop :=
  ∃ before, cs = before ++ part ++ after ∧ before.length = offset ∧
    before.getLast? ≠ some '\r'

theorem Embedded.startable {offset : Nat} {part after : List Char}
    (h : Embedded cs offset part after) (hne : part ++ after ≠ []) : Startable cs offset := by
  obtain ⟨before, rfl, hoffset, hlast⟩ := h
  obtain ⟨c, rest, hrest⟩ := List.exists_cons_of_ne_nil hne
  exact ⟨before, c, rest, by rw [List.append_assoc, hrest], hoffset, fun _ => hlast⟩

/-- Every character but a line feed is a place to start. -/
theorem startable_of_ne {before after : List Char} {c : Char} (hcs : cs = before ++ c :: after)
    (hc : c ≠ '\n') : Startable cs before.length :=
  ⟨before, c, after, hcs, rfl, fun h => absurd h hc⟩

/-! ### Tokens -/

/-- A token stands in a text at its offset. -/
structure Lexeme.StandsIn (cs : List Char) (lexeme : Lexeme) : Prop where
  spelled : lexeme.token.Spelled
  stands : StandsAt cs lexeme.offset lexeme.token.text

theorem Lexeme.StandsIn.startable {lexeme : Lexeme} (h : lexeme.StandsIn cs) :
    Startable cs lexeme.offset := by
  obtain ⟨before, after, hcs, hoffset⟩ := h.stands
  obtain ⟨c, text, htext, hc⟩ := h.spelled.head_not_space
  rw [htext, List.append_assoc, List.cons_append] at hcs
  rw [← hoffset]
  refine startable_of_ne hcs ?_
  rintro rfl
  cases hc

theorem tokens_standIn (due : Due) {before source after : List Char}
    (hcs : cs = before ++ source ++ after) :
    (∀ l ∈ (Lexer.tokens due before.length source).lexemes, l.StandsIn cs) ∧
      ∀ c place, (Lexer.tokens due before.length source).stuck = some (c, place) →
        Startable cs place := by
  induction hlen : source.length using Nat.strongRecOn generalizing due before source with
  | ind n ih =>
    cases source with
    | nil => simp [tokens_nil]
    | cons c source =>
      cases hc : Lexer.isSpace c with
      | true =>
        have hnext := @ih source.length (by simp [← hlen]) due (before ++ [c]) source
          (by simp [hcs]) rfl
        rwa [List.length_append, List.length_singleton, ← tokens_space due _ hc] at hnext
      | false =>
        cases hread : Lexer.readToken due (c :: source) with
        | none =>
          rw [tokens_stuck _ hc hread]
          refine ⟨by simp, fun d place hstuck => ?_⟩
          cases hstuck
          refine startable_of_ne (by rw [hcs, List.append_assoc, List.cons_append]) ?_
          rintro rfl
          cases hc
        | some found =>
          obtain ⟨token, rest⟩ := found
          have htext := Lexer.readToken_text hread
          rw [tokens_token _ hc hread]
          have hnext := @ih rest.length (hlen ▸ Lexer.readToken_length hread) token.leads
            (before ++ token.text) rest (by simp [hcs, ← htext]) rfl
          rw [List.length_append] at hnext
          refine ⟨List.forall_mem_cons.mpr ⟨⟨spelled_of_readToken hread, ?_⟩, hnext.1⟩, hnext.2⟩
          exact ⟨before, rest ++ after, by simp [hcs, ← htext], rfl⟩

/-! ### Pieces -/

/-- Where a piece of a template is in a text. -/
def Piece.SitsIn (cs : List Char) : Piece → Prop
  | .text offset _ => Startable cs offset
  | .code offset source => ∃ after, Embedded cs offset source ('\x7d' :: after)
  | .unclosed offset => Startable cs offset

/-- Pieces without the literal text in front. -/
def Piece.dropText : List Piece → List Piece
  | .text _ _ :: rest => rest
  | pieces => pieces

theorem Piece.addText_eq (offset : Nat) (chars : List Char) (pieces : List Piece) :
    ∃ all, addText offset chars pieces = .text offset all :: dropText pieces := by
  cases pieces with
  | nil => exact ⟨chars, rfl⟩
  | cons piece rest => cases piece <;> exact ⟨_, rfl⟩

theorem Piece.Within.pass_eq_none {within : Within} {c : Char} (h : within.pass c = none) :
    c = '\x7d' := by
  cases within with
  | code depth =>
    simp only [Within.pass] at h
    split at h
    · cases h
    · split at h
      · cases h
      · split at h
        · assumption
        · cases h
  | string depth =>
    simp only [Within.pass] at h
    split at h
    · cases h
    · split at h <;> cases h
  | escape depth => cases h

theorem Piece.takeCode_close {within : Within} {cs source rest : List Char}
    (h : takeCode within cs = some (source, rest)) : cs = source ++ '\x7d' :: rest := by
  induction cs generalizing within source with
  | nil => cases h
  | cons c cs ih =>
    rw [takeCode] at h
    split at h
    · next hpass =>
      cases h
      rw [Within.pass_eq_none hpass, List.nil_append]
    · obtain ⟨r, hr, heq⟩ := Option.map_eq_some_iff.mp h
      cases heq
      rw [ih hr, List.cons_append]

/-- Literal text in front of a template begins where the template does. -/
theorem Piece.split_eq_text (offset : Nat) (body : List Char) :
    ∀ place chars rest, split offset body = .text place chars :: rest →
      place = offset ∧ body ≠ [] := by
  have hadd : ∀ (all : List Char) (pieces : List Piece) place chars rest,
      addText offset all pieces = .text place chars :: rest → place = offset := by
    intro all pieces place chars rest h
    obtain ⟨joined, hjoined⟩ := addText_eq offset all pieces
    rw [hjoined] at h
    cases h
    rfl
  fun_cases split offset body with
  | case1 => exact fun _ _ _ h => nomatch h
  | case2 cs => exact fun _ _ _ h => ⟨hadd _ _ _ _ _ h, List.cons_ne_nil _ _⟩
  | case3 cs => exact fun _ _ _ h => nomatch h
  | case4 cs source more => exact fun _ _ _ h => nomatch h
  | case5 c cs => exact fun _ _ _ h => ⟨hadd _ _ _ _ _ h, List.cons_ne_nil _ _⟩

/-- All pieces of a template are where they should be, if those behind the literal text in
front are. -/
theorem Piece.split_sits_of_dropText {offset : Nat} {body after : List Char}
    (h : ∀ piece ∈ dropText (split offset body), piece.SitsIn cs)
    (hbody : Embedded cs offset body after) : ∀ piece ∈ split offset body, piece.SitsIn cs := by
  have htext := split_eq_text offset body
  generalize split offset body = pieces at h htext
  cases pieces with
  | nil => exact h
  | cons first rest =>
    cases first with
    | text place chars =>
      obtain ⟨rfl, hne⟩ := htext place chars rest rfl
      refine List.forall_mem_cons.mpr ⟨hbody.startable ?_, h⟩
      exact List.append_ne_nil_of_left_ne_nil hne _
    | code | unclosed => exact h

/-- Literal text in front is left out here, since whether it may start depends on what
stands before the template. -/
theorem Piece.dropText_split_sits {before body after : List Char} {offset : Nat}
    (hcs : cs = before ++ body ++ after) (hoffset : before.length = offset) :
    ∀ piece ∈ dropText (split offset body), piece.SitsIn cs := by
  fun_induction split offset body generalizing before with
  | case1 offset => exact fun _ h => nomatch h
  | case2 offset rest ih =>
    obtain ⟨all, hall⟩ := addText_eq offset ['$', '\x7b'] (split (offset + 3) rest)
    rw [hall]
    exact @ih (before ++ ['$', '$', '\x7b']) (by simp [hcs]) (by simp [hoffset])
  | case3 offset rest hopen =>
    have hcs : cs = before ++ '$' :: ('\x7b' :: rest ++ after) := by simp [hcs]
    refine List.forall_mem_singleton.mpr ?_
    exact hoffset ▸ startable_of_ne hcs (by decide)
  | case4 offset rest source more hopen ih =>
    have hcode := takeCode_close hopen
    have hcs : cs = before ++ ['$', '\x7b'] ++ source ++ '\x7d' :: (more ++ after) := by
      simp [hcs, hcode]
    refine List.forall_mem_cons.mpr ⟨⟨more ++ after, _, hcs, by simp [hoffset], by simp⟩, ?_⟩
    have hbehind : cs = before ++ ['$', '\x7b'] ++ source ++ ['\x7d'] ++ more ++ after := by
      simp [hcs]
    have hlength : (before ++ ['$', '\x7b'] ++ source ++ ['\x7d']).length =
        offset + 2 + source.length + 1 := by
      simp [hoffset]
      omega
    refine split_sits_of_dropText (ih hbehind hlength) ⟨_, hbehind, hlength, ?_⟩
    rw [List.getLast?_concat]
    decide
  | case5 offset c rest _ _ ih =>
    obtain ⟨all, hall⟩ := addText_eq offset [c] (split (offset + 1) rest)
    rw [hall]
    exact @ih (before ++ [c]) (by simp [hcs]) (by simp [hoffset])

/-- **The pieces of a template are where they should be.** -/
theorem Embedded.split_sits {offset : Nat} {body after : List Char}
    (h : Embedded cs offset body after) : ∀ piece ∈ Piece.split offset body, piece.SitsIn cs := by
  have hbody := h
  obtain ⟨before, hcs, hoffset, -⟩ := h
  exact Piece.split_sits_of_dropText (Piece.dropText_split_sits hcs hoffset) hbody

/-! ### Nodes and errors -/

/-- The name in an access or a call. -/
def Node.name? : Node Owner → Option String
  | .access _ _ name => some name
  | .call _ _ function _ => some function
  | _ => none

variable {locate : Nat → Pos}

/-- A node starts at a character of a text, and there its name is written. -/
def Node.Sits (locate : Nat → Pos) (cs : List Char) (n : Node Owner) : Prop :=
  ∃ offset, n.pos = locate offset ∧ Startable cs offset ∧
    ∀ name ∈ n.name?, IsName name.toList ∧ StandsAt cs offset name.toList

/-- All nodes of a tree do. -/
def Node.AllSit (locate : Nat → Pos) (cs : List Char) (n : Node Owner) : Prop :=
  ∀ m ∈ n.subtrees, m.Sits locate cs

/-- An error is at a character of a text. -/
def ParseFailure.Sits (locate : Nat → Pos) (cs : List Char) : ParseFailure → Prop
  | .malformed e => ∃ offset, e.pos = locate offset ∧ Startable cs offset
  | .notText _ => True

/-- Whatever a computation ends with is where it should be. -/
def Sited (locate : Nat → Pos) (cs : List Char) : Except ParseFailure (Node Owner) → Prop :=
  Ends (ParseFailure.Sits locate cs) (Node.AllSit locate cs)

theorem Node.allSit_iff {n : Node Owner} :
    n.AllSit locate cs ↔ n.Sits locate cs ∧ ∀ k ∈ n.kids, k.AllSit locate cs :=
  forall_mem_subtrees

/-- A node without a name sits when it starts at a character and its kids sit. -/
theorem Node.allSit_of_kids {n : Node Owner} {offset : Nat} (hpos : n.pos = locate offset)
    (hstart : Startable cs offset) (hname : n.name? = none)
    (hkids : ∀ k ∈ n.kids, k.AllSit locate cs) : n.AllSit locate cs := by
  refine allSit_iff.mpr ⟨⟨offset, hpos, hstart, fun name h => ?_⟩, hkids⟩
  rw [hname] at h
  cases h

/-- A string literal in a text is read with its body where it should be. -/
def Reading (locate : Nat → Pos) (cs : List Char)
    (string : Nat → List Char → Except ParseFailure (Node Owner)) : Prop :=
  ∀ offset body after, Embedded cs offset body after → body ++ after ≠ [] →
    Sited locate cs (string offset body)

theorem Derivation.start_mem {r : Rule} :
    (d : Derivation r) → ∃ l ∈ d.yield, l.offset = d.phrase.start
  | .tighter _ d => d.start_mem
  | .conditional condition .. => by
    obtain ⟨l, hl, hstart⟩ := condition.start_mem
    exact ⟨l, List.mem_append_left _ hl, hstart⟩
  | .binary _ _ left .. => by
    obtain ⟨l, hl, hstart⟩ := left.start_mem
    exact ⟨l, List.mem_append_left _ hl, hstart⟩
  | .index target .. => by
    obtain ⟨l, hl, hstart⟩ := target.start_mem
    exact ⟨l, List.mem_append_left _ hl, hstart⟩
  | .unary .. | .number .. | .bool .. | .quoted .. | .name .. | .callEmpty .. | .call ..
  | .group .. => ⟨_, List.mem_cons_self, rfl⟩

theorem Derivation.startable {r : Rule} (d : Derivation r) (h : ∀ l ∈ d.yield, l.StandsIn cs) :
    Startable cs d.phrase.start := by
  obtain ⟨l, hl, hstart⟩ := d.start_mem
  exact hstart ▸ (h l hl).startable

theorem Node.ofNumber_sits {offset : Nat} (hstart : Startable cs offset) (digits : List Char) :
    Sited locate cs (Node.ofNumber (locate offset) digits : Except ParseFailure (Node Owner)) := by
  unfold Node.ofNumber
  split
  · exact Node.allSit_of_kids rfl hstart rfl (fun _ h => nomatch h)
  · exact Node.allSit_of_kids rfl hstart rfl (fun _ h => nomatch h)
  · exact ⟨offset, rfl, hstart⟩

/-- A name that is read as a token is written where the token is. -/
theorem Lexeme.StandsIn.name {offset : Nat} {text : List Char}
    (h : Lexeme.StandsIn cs ⟨.name text, offset⟩) :
    ∀ name ∈ some (String.ofList text), IsName name.toList ∧ StandsAt cs offset name.toList := by
  rintro name hname
  cases hname
  rw [String.toList_ofList]
  exact ⟨h.spelled.1, h.stands⟩

theorem Lexeme.StandsIn.body {offset : Nat} {body : List Char}
    (h : Lexeme.StandsIn cs ⟨.quoted body, offset⟩) :
    ∃ after, Embedded cs (offset + 1) body ('"' :: after) := by
  obtain ⟨before, after, hcs, hoffset⟩ := h.stands
  refine ⟨after, before ++ ['"'], ?_, by simp [hoffset], ?_⟩
  · simp [hcs, Token.text]
  · rw [List.getLast?_concat]
    decide

theorem Node.ofArguments_concat (locate : Nat → Pos)
    (string : Nat → List Char → Except ParseFailure (Node Owner)) (arguments : List Phrase)
    (last : Phrase) :
    ofArguments locate string (arguments ++ [last]) = do
      let nodes ← ofArguments locate string arguments
      let n ← ofPhrase locate string last
      return nodes ++ [n] := by
  induction arguments with
  | nil =>
    rw [List.nil_append, ofArguments, ofArguments]
    cases ofPhrase locate string last <;> rfl
  | cons argument rest ih =>
    rw [List.cons_append, ofArguments, ih, ofArguments]
    cases ofPhrase locate string argument with
    | error e => rfl
    | ok n =>
      cases ofArguments locate string rest with
      | error e => rfl
      | ok nodes => cases ofPhrase locate string last <;> rfl

mutual

/-- **The nodes of an expression are where its tokens are.** -/
theorem Derivation.sits {string : Nat → List Char → Except ParseFailure (Node Owner)}
    (hstring : Reading locate cs string) {r : Rule} : (d : Derivation r) →
      (∀ l ∈ d.yield, l.StandsIn cs) → Sited locate cs (Node.ofPhrase locate string d.phrase)
  | .tighter _ d, h => d.sits hstring h
  | .conditional condition question yes colon no, h => by
    -- taken before the tokens are divided, since the first one may be deep in the condition
    have hstart := Derivation.startable (.conditional condition question yes colon no) h
    simp only [Derivation.yield, List.forall_mem_append, List.forall_mem_cons] at h
    rw [Derivation.phrase, Node.ofPhrase]
    refine (condition.sits hstring h.1).bind fun c hc => ?_
    refine (yes.sits hstring h.2.2.1).bind fun y hy => ?_
    refine (no.sits hstring h.2.2.2.2).bind fun n hn => ?_
    exact Node.allSit_of_kids rfl hstart rfl (by simp [Node.kids, hc, hy, hn])
  | .binary op hop left offset right, h => by
    have hstart := Derivation.startable (.binary op hop left offset right) h
    simp only [Derivation.yield, List.forall_mem_append, List.forall_mem_cons] at h
    rw [Derivation.phrase, Node.ofPhrase]
    refine (left.sits hstring h.1).bind fun l hl => ?_
    refine (right.sits hstring h.2.2).bind fun r hr => ?_
    exact Node.allSit_of_kids rfl hstart rfl (by simp [Node.kids, hl, hr])
  | .unary op offset operand, h => by
    simp only [Derivation.yield, List.forall_mem_cons] at h
    rw [Derivation.phrase, Node.ofPhrase]
    refine (operand.sits hstring h.2).bind fun n hn => ?_
    exact Node.allSit_of_kids rfl h.1.startable rfl (by simp [Node.kids, hn])
  | .index target openBracket key closeBracket, h => by
    have hstart := Derivation.startable (.index target openBracket key closeBracket) h
    simp only [Derivation.yield, List.forall_mem_append, List.forall_mem_cons] at h
    rw [Derivation.phrase, Node.ofPhrase]
    refine (target.sits hstring h.1).bind fun t ht => ?_
    refine (key.sits hstring h.2.2.1).bind fun k hk => ?_
    exact Node.allSit_of_kids rfl hstart rfl (by simp [Node.kids, ht, hk])
  | .number offset digits, h => by
    rw [Derivation.phrase, Node.ofPhrase]
    exact Node.ofNumber_sits (h _ List.mem_cons_self).startable digits
  | .bool offset b, h => by
    rw [Derivation.phrase, Node.ofPhrase]
    exact Node.allSit_of_kids rfl (h _ List.mem_cons_self).startable rfl (fun _ h => nomatch h)
  | .quoted offset body, h => by
    obtain ⟨after, hbody⟩ := (h _ List.mem_cons_self).body
    rw [Derivation.phrase, Node.ofPhrase]
    exact hstring _ _ _ hbody (by simp)
  | .name offset text, h => by
    have hname := h _ List.mem_cons_self
    rw [Derivation.phrase, Node.ofPhrase]
    exact Node.allSit_iff.mpr ⟨⟨offset, rfl, hname.startable, hname.name⟩, fun _ h => nomatch h⟩
  | .callEmpty offset function openParen closeParen, h => by
    have hname := h _ List.mem_cons_self
    rw [Derivation.phrase, Node.ofPhrase, Node.ofArguments]
    exact Node.allSit_iff.mpr ⟨⟨offset, rfl, hname.startable, hname.name⟩, fun _ h => nomatch h⟩
  | .call offset function openParen arguments closeParen, h => by
    have hname := h _ List.mem_cons_self
    simp only [Derivation.yield, List.forall_mem_append, List.forall_mem_cons] at h
    rw [Derivation.phrase, Node.ofPhrase]
    refine (arguments.sit hstring h.2.2.1).bind fun nodes hnodes => ?_
    exact Node.allSit_iff.mpr ⟨⟨offset, rfl, hname.startable, hname.name⟩, hnodes⟩
  | .group openParen inner closeParen, h => by
    simp only [Derivation.yield, List.forall_mem_append, List.forall_mem_cons] at h
    rw [Derivation.phrase, Node.ofPhrase_group]
    exact inner.sits hstring h.2.1

theorem Arguments.sit {string : Nat → List Char → Except ParseFailure (Node Owner)}
    (hstring : Reading locate cs string) : (arguments : Arguments) →
      (∀ l ∈ arguments.yield, l.StandsIn cs) →
      Ends (ParseFailure.Sits locate cs) (fun nodes => ∀ n ∈ nodes, n.AllSit locate cs)
        (Node.ofArguments locate string arguments.phrases)
  | .one argument, h => by
    rw [Arguments.phrases, Node.ofArguments, Node.ofArguments]
    refine (argument.sits hstring h).bind fun n hn => ?_
    exact List.forall_mem_singleton.mpr hn
  | .more init comma last, h => by
    simp only [Arguments.yield, List.forall_mem_append, List.forall_mem_cons] at h
    rw [Arguments.phrases, Node.ofArguments_concat]
    refine (init.sit hstring h.1).bind fun nodes hnodes => ?_
    refine (last.sits hstring h.2.2).bind fun n hn => ?_
    exact List.forall_mem_append.mpr ⟨hnodes, List.forall_mem_singleton.mpr hn⟩

end

/-! ### From pieces to templates -/

theorem readPhrase_sits {before source after : List Char}
    (hcs : cs = before ++ source ++ '\x7d' :: after) :
    Ends (fun e : SyntaxError.Cause × Nat => Startable cs e.2)
      (fun p => ∃ d : Derivation .expr, d.phrase = p ∧ ∀ l ∈ d.yield, l.StandsIn cs)
      (readPhrase before.length source) := by
  obtain ⟨hlexemes, hstuck⟩ := tokens_standIn .operand hcs
  unfold readPhrase
  generalize Lexer.tokens .operand before.length source = lexed at hlexemes hstuck
  simp only
  split
  · next bad hrun =>
    obtain ⟨init, rest, _, hall, -, -⟩ := Reader.run_error hrun
    exact (hlexemes bad (by simp [hall])).startable
  · next reader hrun =>
    split
    · next c place hplace => exact hstuck c place hplace
    · split
      · next p hresult =>
        obtain ⟨d, hphrase, hyield⟩ := run_result?_iff.mp ⟨reader, hrun, hresult⟩
        exact ⟨d, hphrase, hyield ▸ hlexemes⟩
      · rw [← List.length_append]
        exact startable_of_ne hcs (by decide)

variable {string : Nat → List Char → Except ParseFailure (Node Owner)}

theorem expression_sits (hstring : Reading locate cs string) {offset : Nat}
    {source after : List Char} (h : Embedded cs offset source ('\x7d' :: after)) :
    Sited locate cs (expression locate string offset source) := by
  unfold expression
  split
  · exact ⟨offset, rfl, h.startable (by simp)⟩
  · obtain ⟨before, hcs, rfl, -⟩ := h
    have hread := readPhrase_sits hcs
    split
    · next cause place herror =>
      rw [herror] at hread
      exact ⟨place, rfl, hread⟩
    · next p hok =>
      rw [hok] at hread
      obtain ⟨d, rfl, hyield⟩ := hread
      exact d.sits hstring hyield

theorem ofPiece_sits (hstring : Reading locate cs string) {piece : Piece}
    (h : piece.SitsIn cs) : Sited locate cs (ofPiece locate string piece) := by
  cases piece with
  | text offset chars => exact Node.allSit_of_kids rfl h rfl (fun _ h => nomatch h)
  | code offset source =>
    obtain ⟨after, hsource⟩ := h
    exact expression_sits hstring hsource
  | unclosed offset => exact ⟨offset, rfl, h⟩

theorem ofPieces_sit (hstring : Reading locate cs string) {pieces : List Piece}
    (h : ∀ piece ∈ pieces, piece.SitsIn cs) :
    Ends (ParseFailure.Sits locate cs) (fun nodes => ∀ n ∈ nodes, n.AllSit locate cs)
      (ofPieces locate string pieces) := by
  induction pieces with
  | nil => exact fun _ h => nomatch h
  | cons piece rest ih =>
    obtain ⟨hpiece, hrest⟩ := List.forall_mem_cons.mp h
    rw [ofPieces]
    refine (ofPiece_sits hstring hpiece).bind fun n hn => (ih hrest).bind fun nodes hnodes => ?_
    exact List.forall_mem_cons.mpr ⟨hn, hnodes⟩

theorem unescapePart_sits {part : Node Owner} (h : part.AllSit locate cs) :
    Sited locate cs (unescapePart part) := by
  unfold unescapePart
  split
  · obtain ⟨offset, hpos, hstart, -⟩ := (Node.allSit_iff.mp h).1
    exact Node.allSit_of_kids hpos hstart rfl (fun _ h => nomatch h)
  · trivial
  · exact h

theorem closeString_sits {offset : Nat} (hstart : Startable cs offset)
    {parts : List (Node Owner)} (h : ∀ part ∈ parts, part.AllSit locate cs) :
    Sited locate cs (closeString (locate offset) parts) := by
  have hparts := Ends.mapM fun part hpart => unescapePart_sits (h part hpart)
  refine hparts.bind fun closed hclosed => ?_
  split
  · exact Node.allSit_of_kids rfl hstart rfl (fun _ h => nomatch h)
  · exact hclosed _ (List.mem_singleton_self _)
  · exact Node.allSit_of_kids rfl hstart rfl hclosed

/-- Whatever the nesting, what a string literal is read as is where it should be. -/
theorem ofString_sits (locate : Nat → Pos) (cs : List Char) (level : Nat) :
    Reading locate cs (ofString locate level : _ → _ → Except ParseFailure (Node Owner)) := by
  induction level with
  | zero =>
    intro offset body after hbody hne
    exact Node.allSit_of_kids rfl (hbody.startable hne) rfl (fun _ h => nomatch h)
  | succ level ih =>
    intro offset body after hbody hne
    rw [ofString]
    -- the literals inside the interpolations of this one are read a level below
    refine (ofPieces_sit ih hbody.split_sits).bind fun parts hparts => ?_
    exact closeString_sits (hbody.startable hne) hparts

/-- **The nodes of a template and the errors in it are at characters of its text.** -/
theorem parse_sits {text : String} (h : text ≠ "") (start : Pos) :
    Sited (start.locate text.toList) text.toList
      (parse text start : Except ParseFailure (Node Owner)) := by
  have hbody : Embedded text.toList 0 text.toList [] := ⟨[], by simp, rfl, by simp⟩
  have hne : text.toList ++ [] ≠ [] := by
    rw [List.append_nil, ne_eq, String.toList_eq_nil_iff]
    exact h
  unfold parse
  refine (ofPieces_sit (ofString_sits _ _ _) hbody.split_sits).bind fun parts hparts => ?_
  exact Node.allSit_of_kids rfl (hbody.startable hne) rfl hparts

end Interpolation.Template
