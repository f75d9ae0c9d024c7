/-
What has been read can always be finished.

* `Derivation.relabel` — whether tokens are derived does not depend on their offsets;
* `Reader.finishes_closing` — every reader has tokens that finish what it has begun;
* `exists_isSource_append` — a text whose tokens a reader accepts goes on to a source.

Design notes: the stack of a reader says what is missing.  Each construct on it is closed by
its own token, and a question mark also needs the other branch, for which any operand will do.
Operators need nothing: they are completed by the token that closes what is around them.  The
closing tokens are written behind white space, where they do not change how the text in front
of them is cut.
-/
import Interpolation.Proofs.Template.Brackets

namespace Interpolation.Template

open Reader

/-! ### Offsets do not matter -/

mutual

/-- **Whether tokens are derived does not depend on their offsets.** -/
theorem Derivation.relabel {r : Rule} : (d : Derivation r) → {lexemes : List Lexeme} →
    lexemes.map Lexeme.token = d.yield.map Lexeme.token → ∃ d' : Derivation r, d'.yield = lexemes
  | .tighter hr d, _, h => by
    obtain ⟨d', rfl⟩ := d.relabel h
    exact ⟨.tighter hr d', rfl⟩
  | .conditional condition _ yes _ no, _, h => by
    simp only [Derivation.yield, List.map_append, List.map_cons] at h
    obtain ⟨cs, question, rest, rfl, hcs, hrest⟩ := map_token_eq_around h
    obtain ⟨ys, colon, ns, rfl, hys, hns⟩ := map_token_eq_around hrest
    obtain ⟨condition', rfl⟩ := condition.relabel hcs
    obtain ⟨yes', rfl⟩ := yes.relabel hys
    obtain ⟨no', rfl⟩ := no.relabel hns
    exact ⟨.conditional condition' question yes' colon no', rfl⟩
  | .binary op hop left _ right, _, h => by
    simp only [Derivation.yield, List.map_append, List.map_cons] at h
    obtain ⟨ls, offset, rs, rfl, hls, hrs⟩ := map_token_eq_around h
    obtain ⟨left', rfl⟩ := left.relabel hls
    obtain ⟨right', rfl⟩ := right.relabel hrs
    exact ⟨.binary op hop left' offset right', rfl⟩
  | .unary op _ operand, _, h => by
    obtain ⟨offset, ms, rfl, hms⟩ := map_token_eq_cons h
    obtain ⟨operand', rfl⟩ := operand.relabel hms
    exact ⟨.unary op offset operand', rfl⟩
  | .index target _ key _, _, h => by
    simp only [Derivation.yield, List.map_append, List.map_cons, List.map_nil] at h
    obtain ⟨ts, openBracket, rest, rfl, hts, hrest⟩ := map_token_eq_around h
    obtain ⟨ks, closeBracket, rfl, hks⟩ := map_token_eq_concat hrest
    obtain ⟨target', rfl⟩ := target.relabel hts
    obtain ⟨key', rfl⟩ := key.relabel hks
    exact ⟨.index target' openBracket key' closeBracket, rfl⟩
  | .number _ digits, _, h => by
    obtain ⟨offset, rfl⟩ := map_token_eq_singleton h
    exact ⟨.number offset digits, rfl⟩
  | .bool _ b, _, h => by
    obtain ⟨offset, rfl⟩ := map_token_eq_singleton h
    exact ⟨.bool offset b, rfl⟩
  | .quoted _ body, _, h => by
    obtain ⟨offset, rfl⟩ := map_token_eq_singleton h
    exact ⟨.quoted offset body, rfl⟩
  | .name _ text, _, h => by
    obtain ⟨offset, rfl⟩ := map_token_eq_singleton h
    exact ⟨.name offset text, rfl⟩
  | .callEmpty _ function _ _, _, h => by
    obtain ⟨offset, rest, rfl, hrest⟩ := map_token_eq_cons h
    obtain ⟨openParen, last, rfl, hlast⟩ := map_token_eq_cons hrest
    obtain ⟨closeParen, rfl⟩ := map_token_eq_singleton hlast
    exact ⟨.callEmpty offset function openParen closeParen, rfl⟩
  | .call _ function _ arguments _, _, h => by
    simp only [Derivation.yield, List.map_append, List.map_cons, List.map_nil] at h
    obtain ⟨offset, rest, rfl, hrest⟩ := map_token_eq_cons h
    obtain ⟨openParen, inner, rfl, hinner⟩ := map_token_eq_cons hrest
    obtain ⟨as, closeParen, rfl, has⟩ := map_token_eq_concat hinner
    obtain ⟨arguments', rfl⟩ := arguments.relabel has
    exact ⟨.call offset function openParen arguments' closeParen, rfl⟩
  | .group _ inner _, _, h => by
    simp only [Derivation.yield, List.map_append, List.map_cons, List.map_nil] at h
    obtain ⟨openParen, rest, rfl, hrest⟩ := map_token_eq_cons h
    obtain ⟨is, closeParen, rfl, his⟩ := map_token_eq_concat hrest
    obtain ⟨inner', rfl⟩ := inner.relabel his
    exact ⟨.group openParen inner' closeParen, rfl⟩

theorem Arguments.relabel : (a : Arguments) → {lexemes : List Lexeme} →
    lexemes.map Lexeme.token = a.yield.map Lexeme.token → ∃ a' : Arguments, a'.yield = lexemes
  | .one argument, _, h => by
    obtain ⟨argument', rfl⟩ := argument.relabel h
    exact ⟨.one argument', rfl⟩
  | .more others _ last, _, h => by
    simp only [Arguments.yield, List.map_append, List.map_cons] at h
    obtain ⟨os, comma, ls, rfl, hos, hls⟩ := map_token_eq_around h
    obtain ⟨others', rfl⟩ := others.relabel hos
    obtain ⟨last', rfl⟩ := last.relabel hls
    exact ⟨.more others' comma last', rfl⟩

end

/-! ### Closing what has been begun -/

/-- The tokens that close a construct once its last operand is there. -/
def Pending.closing : Pending → List Token
  | .yes _ => [.colon, .name ['a']]
  | .group _ | .call .. => [.closeParen]
  | .index _ => [.closeBracket]
  | .unary .. | .binary .. | .no .. => []

/-- The tokens that finish what a reader has begun. -/
def Reader.closing : Reader → List Token
  | .before stack => .name ['a'] :: stack.flatMap Pending.closing
  | .behind stack _ => stack.flatMap Pending.closing

/-- Tokens lead a reader to a whole phrase. -/
def Reader.Finishes (r : Reader) (lexemes : List Lexeme) : Prop :=
  ∃ last p, r.run lexemes = .ok last ∧ last.result? = some p

theorem Reader.Finishes.cons {r next : Reader} {lexeme : Lexeme} {lexemes : List Lexeme}
    (hstep : r.step lexeme = some next) (h : next.Finishes lexemes) :
    r.Finishes (lexeme :: lexemes) := by
  obtain ⟨last, p, hrun, hp⟩ := h
  exact ⟨last, p, run_cons_eq_ok.mpr ⟨next, hstep, hrun⟩, hp⟩

/-- The tokens that complete whatever is in front of them. -/
def Token.Completes (t : Token) : Prop :=
  t = .colon ∨ t = .closeParen ∨ t = .closeBracket

theorem completes_of_mem_head?_closing {stack : List Pending} {t : Token}
    (h : t ∈ (stack.flatMap Pending.closing).head?) : t.Completes := by
  induction stack with
  | nil => cases h
  | cons waiting stack ih =>
    cases waiting with
    | unary | binary | no => exact ih h
    | yes =>
      cases h
      exact .inl rfl
    | group | call =>
      cases h
      exact .inr (.inl rfl)
    | index =>
      cases h
      exact .inr (.inr rfl)

section Complete

variable {stack stack' : List Pending} {p p' : Phrase}

/-- Such a token sees a stack as it is when it is completed. -/
theorem stepBehind_of_complete (h : complete stack p = complete stack' p') {t : Token}
    (ht : t.Completes) : stepBehind stack p t = stepBehind stack' p' t := by
  obtain rfl | rfl | rfl := ht <;> simp only [stepBehind, h]

theorem finishes_of_complete (h : complete stack p = complete stack' p') {lexemes : List Lexeme}
    (hhead : ∀ t ∈ (lexemes.map Lexeme.token).head?, t.Completes)
    (hfinishes : (Reader.behind stack' p').Finishes lexemes) :
    (Reader.behind stack p).Finishes lexemes := by
  obtain ⟨last, q, hrun, hq⟩ := hfinishes
  cases lexemes with
  | nil =>
    cases hrun
    refine ⟨_, q, rfl, ?_⟩
    rw [← hq, result?, result?, h]
  | cons lexeme rest =>
    obtain ⟨next, hstep, hrun⟩ := run_cons_eq_ok.mp hrun
    refine Finishes.cons ?_ ⟨last, q, hrun, hq⟩
    show stepBehind stack p lexeme.token = some next
    rw [stepBehind_of_complete h (hhead lexeme.token rfl)]
    exact hstep

end Complete

/-- Behind an operand the constructs on the stack are closed one by one. -/
theorem finishes_behind (stack : List Pending) (p : Phrase) {lexemes : List Lexeme}
    (h : lexemes.map Lexeme.token = stack.flatMap Pending.closing) :
    (Reader.behind stack p).Finishes lexemes := by
  induction stack generalizing p lexemes with
  | nil =>
    obtain rfl := List.map_eq_nil_iff.mp h
    exact ⟨_, p, rfl, rfl⟩
  | cons waiting stack ih =>
    -- what needs no token of its own is completed by the next token, or at the end
    have hpass : ∀ {p p' : Phrase} {waiting : Pending} {lexemes : List Lexeme},
        complete (waiting :: stack) p = complete stack p' →
        lexemes.map Lexeme.token = stack.flatMap Pending.closing →
        (Reader.behind (waiting :: stack) p).Finishes lexemes := by
      intro p p' waiting lexemes hcomplete h
      refine finishes_of_complete hcomplete ?_ (ih p' h)
      intro t ht
      rw [h] at ht
      exact completes_of_mem_head?_closing ht
    cases waiting with
    | unary | binary | no => exact hpass rfl h
    | yes condition =>
      obtain ⟨colon, rest, rfl, hrest⟩ := map_token_eq_cons h
      obtain ⟨offset, closing, rfl, hclosing⟩ := map_token_eq_cons hrest
      exact .cons rfl (.cons rfl (hpass rfl hclosing))
    | group | call | index =>
      obtain ⟨offset, rest, rfl, hrest⟩ := map_token_eq_cons h
      exact .cons rfl (ih _ hrest)

/-- **Every reader has tokens that finish what it has begun.** -/
theorem Reader.finishes_closing (r : Reader) {lexemes : List Lexeme}
    (h : lexemes.map Lexeme.token = r.closing) : r.Finishes lexemes := by
  cases r with
  | before stack =>
    obtain ⟨offset, rest, rfl, hrest⟩ := map_token_eq_cons h
    exact .cons rfl (finishes_behind stack _ hrest)
  | behind stack p => exact finishes_behind stack p h

/-- The tokens there are to close with. -/
def closers : List Token := [.colon, .name ['a'], .closeParen, .closeBracket]

theorem Reader.closing_subset (r : Reader) : r.closing ⊆ closers := by
  have hpending : ∀ pending : Pending, pending.closing ⊆ closers := by
    intro pending
    cases pending <;> simp [Pending.closing, closers]
  have hstack : ∀ stack : List Pending, stack.flatMap Pending.closing ⊆ closers := by
    intro stack t ht
    obtain ⟨pending, -, ht⟩ := List.mem_flatMap.mp ht
    exact hpending pending ht
  cases r with
  | before stack => exact List.cons_subset.mpr ⟨by simp [closers], hstack stack⟩
  | behind stack p => exact hstack stack

/-! ### Phrases whose literals have values -/

/-- A token that has its value without fail: a number that is not too long, and no string
literal. -/
def Token.IsSure : Token → Prop
  | .number digits => (Number.ofUnsigned? false digits).isSome
  | .quoted _ => False
  | _ => True

theorem plain_of_mem_closers {t : Token} (h : t ∈ closers) : t.Plain ∧ t.IsSure := by
  have hname : (Token.name ['a']).Plain :=
    plain_name ⟨'a', [], [], by decide, by simp, by simp, rfl⟩ (by rintro (h | h) <;> cases h)
  simp only [closers, List.mem_cons, List.not_mem_nil, or_false] at h
  obtain rfl | rfl | rfl | rfl := h
  · exact ⟨plain_mark (by decide), trivial⟩
  · exact ⟨hname, trivial⟩
  · exact ⟨plain_mark (by decide), trivial⟩
  · exact ⟨plain_mark (by decide), trivial⟩

variable {Owner : Type}

section Nodes

variable (locate : Nat → Pos) (string : Nat → List Char → Except ParseFailure (Node Owner))

theorem exists_ofArguments {arguments : List Phrase}
    (h : ∀ a ∈ arguments, ∃ n, Node.ofPhrase locate string a = .ok n) :
    ∃ nodes, Node.ofArguments locate string arguments = .ok nodes := by
  induction arguments with
  | nil => exact ⟨[], by rw [Node.ofArguments]⟩
  | cons a rest ih =>
    obtain ⟨ha, hrest⟩ := List.forall_mem_cons.mp h
    obtain ⟨n, hn⟩ := ha
    obtain ⟨nodes, hnodes⟩ := ih hrest
    refine ⟨n :: nodes, ?_⟩
    rw [Node.ofArguments, hn, hnodes]
    rfl

theorem mem_argumentTokens {arguments : List Phrase} {a : Phrase} (ha : a ∈ arguments)
    {token : Token} (h : token ∈ a.tokens) : token ∈ Phrase.argumentTokens arguments := by
  induction arguments with
  | nil => cases ha
  | cons first rest ih =>
    cases rest with
    | nil =>
      obtain rfl := List.mem_singleton.mp ha
      exact h
    | cons second others =>
      rw [Phrase.argumentTokens]
      · rcases List.mem_cons.mp ha with rfl | ha
        · exact List.mem_append_left _ h
        · exact List.mem_append_right _ (List.mem_cons_of_mem _ (ih ha))
      · simp

/-- **A phrase whose literals have values has a node.** -/
theorem exists_ofPhrase (p : Phrase) (h : ∀ t ∈ p.tokens, t.IsSure) :
    ∃ n, Node.ofPhrase locate string p = .ok n := by
  induction p with
  | number offset digits =>
    obtain ⟨x, hx⟩ := Option.isSome_iff_exists.mp (h (.number digits) (by simp [Phrase.tokens]))
    rw [Node.ofPhrase, Node.ofNumber, hx]
    cases x <;> exact ⟨_, rfl⟩
  | bool | name => exact ⟨_, by rw [Node.ofPhrase]⟩
  | quoted offset body => exact (h (.quoted body) (by simp [Phrase.tokens])).elim
  | call offset function arguments ih =>
    obtain ⟨nodes, hnodes⟩ := exists_ofArguments locate string fun a ha =>
      ih a ha fun t ht => h t (by simp [Phrase.tokens, mem_argumentTokens ha ht])
    rw [Node.ofPhrase, hnodes]
    exact ⟨_, rfl⟩
  | group offset inner ih =>
    rw [Node.ofPhrase]
    exact ih fun t ht => h t (by simp [Phrase.tokens, ht])
  | index target key iht ihk =>
    obtain ⟨t, ht⟩ := iht fun t ht => h t (by simp [Phrase.tokens, ht])
    obtain ⟨k, hk⟩ := ihk fun t ht => h t (by simp [Phrase.tokens, ht])
    rw [Node.ofPhrase, ht, hk]
    exact ⟨_, rfl⟩
  | unary offset op operand ih =>
    obtain ⟨n, hn⟩ := ih fun t ht => h t (by simp [Phrase.tokens, ht])
    rw [Node.ofPhrase, hn]
    exact ⟨_, rfl⟩
  | binary op left right ihl ihr =>
    obtain ⟨l, hl⟩ := ihl fun t ht => h t (by simp [Phrase.tokens, ht])
    obtain ⟨r, hr⟩ := ihr fun t ht => h t (by simp [Phrase.tokens, ht])
    rw [Node.ofPhrase, hl, hr]
    exact ⟨_, rfl⟩
  | conditional condition yes no ihc ihy ihn =>
    obtain ⟨c, hc⟩ := ihc fun t ht => h t (by simp [Phrase.tokens, ht])
    obtain ⟨y, hy⟩ := ihy fun t ht => h t (by simp [Phrase.tokens, ht])
    obtain ⟨n, hn⟩ := ihn fun t ht => h t (by simp [Phrase.tokens, ht])
    rw [Node.ofPhrase, hc, hy, hn]
    exact ⟨_, rfl⟩

theorem Derives.exists_node {r : Rule} {p : Phrase} {lexemes : List Lexeme}
    (h : Derives r p lexemes) (hsure : ∀ l ∈ lexemes, l.token.IsSure) :
    ∃ n, Node.ofPhrase locate string p = .ok n := by
  obtain ⟨d, rfl, rfl⟩ := h
  refine exists_ofPhrase locate string d.phrase ?_
  rw [d.tokens_phrase]
  exact List.forall_mem_map.mpr hsure

end Nodes

/-! ### Texts that go on -/

/-- A text that goes on behind white space is cut as it was. -/
theorem Cut.append {offset : Nat} {cs : List Char} {lexemes : List Lexeme}
    (h : Cut offset cs lexemes) (hquote : '"' ∉ cs) {behind : List Char} {more : List Lexeme}
    (hgap : ∀ c ∈ behind.head?, Lexer.isSpace c = true)
    (hmore : Cut (offset + cs.length) behind more) :
    Cut offset (cs ++ behind) (lexemes ++ more) := by
  induction h with
  | done => exact hmore
  | @space offset c cs _ hc _ ih =>
    refine .space hc (ih (fun hmem => hquote (List.mem_cons_of_mem _ hmem)) ?_)
    rwa [List.length_cons, Nat.add_comm cs.length, ← Nat.add_assoc] at hmore
  | @token offset cs rest token _ hfirst _ ih =>
    have hrest : '"' ∉ rest := by
      intro hmem
      rw [← hfirst.text_append] at hquote
      exact hquote (List.mem_append_right _ hmem)
    refine .token (hfirst.extend hquote hgap) (ih hrest ?_)
    rwa [← hfirst.text_append, List.length_append, ← Nat.add_assoc] at hmore

/-- The tokens of a text are spelled as they have to be, and are parts of it. -/
theorem Cut.forall_infix {offset : Nat} {cs : List Char} {lexemes : List Lexeme}
    (h : Cut offset cs lexemes) : ∀ l ∈ lexemes, l.token.Spelled ∧ l.token.text <:+: cs := by
  intro l hl
  obtain ⟨hspelled, before, after, hcs, -⟩ := h.stands l hl
  exact ⟨hspelled, before, after, hcs.symm⟩

/-- A text with tokens is not blank. -/
theorem Cut.not_blank {offset : Nat} {cs : List Char} {lexemes : List Lexeme}
    (h : Cut offset cs lexemes) (hne : lexemes ≠ []) : isBlank cs = false := by
  obtain ⟨lexeme, rest, rfl⟩ := List.exists_cons_of_ne_nil hne
  obtain ⟨hspelled, hin⟩ := h.forall_infix lexeme List.mem_cons_self
  obtain ⟨c, more, htext, -⟩ := hspelled.head_not_space
  have hc : c ∈ lexeme.token.text := by
    rw [htext]
    exact List.mem_cons_self
  have hblank : blanks.contains c = false := by
    rcases hspelled.isPlain with ⟨body, hbody⟩ | hplain
    · obtain rfl : c = '"' := by
        rw [hbody] at htext
        exact (List.cons.inj htext).1.symm
      decide
    · exact (hplain c hc).not_blank
  rw [isBlank, List.all_eq_false]
  exact ⟨c, hin.subset hc, by simp [hblank]⟩

/-- A text whose tokens are derived, and have their values, is the source of an
expression. -/
theorem Cut.isSource {source : List Char} {lexemes : List Lexeme} {p : Phrase}
    (h : Cut 2 source lexemes) (hp : Derives .expr p lexemes)
    (hsure : ∀ l ∈ lexemes, l.token.IsSure) : IsSource Owner source := by
  have hread : readPhrase 2 source = .ok p := readPhrase_eq_ok_iff.mpr ⟨lexemes, h, hp⟩
  obtain ⟨n, hn⟩ := hp.exists_node _ _ hsure
  obtain ⟨d, rfl, rfl⟩ := hp
  exact ⟨n, parse_of_readPhrase (h.not_blank d.yield_ne_nil) hread hn⟩

/-- **A text whose tokens a reader accepts goes on to a source.** -/
theorem exists_isSource_append {source : List Char} {lexemes : List Lexeme} {r : Reader}
    (h : Cut 2 source lexemes) (hrun : start.run lexemes = .ok r) (hquote : '"' ∉ source)
    (hsure : ∀ l ∈ lexemes, l.token.IsSure) :
    ∃ more, more ≠ [] ∧ IsSource Owner (source ++ more) := by
  obtain ⟨text, htext⟩ := exists_spaced r.closing
  have hclosers : ∀ t ∈ r.closing, t.Plain ∧ t.IsSure := fun t ht =>
    plain_of_mem_closers (r.closing_subset ht)
  obtain ⟨closing, htokens, hcut⟩ :=
    htext.cut (fun t ht => (hclosers t ht).1) (2 + source.length + 1)
  obtain ⟨last, p, hlast, hp⟩ := r.finishes_closing htokens
  have hall : start.run (lexemes ++ closing) = .ok last := by
    rw [run_append, hrun]
    exact hlast
  refine ⟨' ' :: text, List.cons_ne_nil _ _, ?_⟩
  have hspace : Cut (2 + source.length) (' ' :: text) closing := .space rfl hcut
  have hwhole := h.append hquote (by rintro c ⟨⟩; rfl) hspace
  refine hwhole.isSource (run_result?_iff.mp ⟨last, hall, hp⟩) ?_
  rw [List.forall_mem_append]
  refine ⟨hsure, fun l hl => (hclosers l.token ?_).2⟩
  rw [← htokens]
  exact List.mem_map_of_mem hl

end Interpolation.Template
