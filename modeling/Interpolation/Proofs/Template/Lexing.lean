/-
Cutting a text into its longest tokens.

* `Cut` — how a text is cut: white space is skipped, and the longest token is taken;
* `Cut.unique` — there is at most one way to cut a text;
* `Cut.stands` — the tokens stand in the text at their offsets;
* `split_of_tokens` — the tokens a reader accepts cut a part of the text;
* `tokens_eq_iff_cut` — when a reader accepts the tokens, they are found by a lexer that
  knows what is due exactly when the text is cut into them.

Design notes: what is due makes a difference for one token only.  Where an operand is due
an exclamation mark stands alone, even before an equals sign; but then the equals sign
cannot be read, and the longer token could not be read either.  So the two ways to cut a
text agree on every text that is accepted, though not on every text.
-/
import Interpolation.Proofs.Template.Spelling
import Interpolation.Template.Phrase.Reader

namespace Interpolation.Template

open Lexer

/-- The text at an offset is cut into tokens. -/
inductive Cut : Nat → List Char → List Lexeme → Prop where
  | done (offset : Nat) : Cut offset [] []
  | space {offset : Nat} {c : Char} {cs : List Char} {lexemes : List Lexeme}
    (hc : isSpace c = true) (h : Cut (offset + 1) cs lexemes) : Cut offset (c :: cs) lexemes
  | token {offset : Nat} {cs rest : List Char} {token : Token} {lexemes : List Lexeme}
    (hfirst : IsLongest cs token rest)
    (h : Cut (offset + token.text.length) rest lexemes) :
    Cut offset cs (⟨token, offset⟩ :: lexemes)

/-! ### There is at most one way to cut a text -/

theorem isSpace_iff {c : Char} : isSpace c = true ↔
    c = ' ' ∨ c = '\t' ∨ c = '\x0c' ∨ c = '\r' ∨ c = '\n' := by
  simp only [isSpace, Bool.or_eq_true, decide_eq_true_eq]
  tauto

/-- No token begins with white space. -/
theorem Token.Spelled.head_not_space {token : Token} (h : token.Spelled) :
    ∃ c cs, token.text = c :: cs ∧ isSpace c = false := by
  obtain ⟨c, cs, hcs, hhead⟩ := h.head
  refine ⟨c, cs, hcs, ?_⟩
  rw [Bool.eq_false_iff, ne_eq, isSpace_iff]
  cases hhead with
  | quoted hc =>
    rw [hc]
    decide
  | number _ hdigit =>
    rintro (rfl | rfl | rfl | rfl | rfl) <;> cases hdigit
  | word _ _ hname =>
    rintro (rfl | rfl | rfl | rfl | rfl) <;> cases hname
  | mark _ _ _ hmark =>
    have hheads : ∀ t ∈ marksFor .operator, t.text.head?.any isSpace = false := by decide
    have hc := hheads token hmark
    rwa [hcs, List.head?_cons, Option.any_some, Bool.eq_false_iff, ne_eq, isSpace_iff] at hc

theorem IsLongest.not_space {c : Char} {cs rest : List Char} {token : Token}
    (h : IsLongest (c :: cs) token rest) : isSpace c = false := by
  obtain ⟨d, ds, hds, hd⟩ := h.spelled.head_not_space
  have htext := h.text_append
  rw [hds] at htext
  obtain ⟨rfl, -⟩ := List.cons.inj htext
  exact hd

theorem IsLongest.ne_nil {cs rest : List Char} {token : Token} (h : IsLongest cs token rest) :
    cs ≠ [] := by
  obtain ⟨d, ds, hds, -⟩ := h.spelled.head_not_space
  rintro rfl
  have htext := h.text_append
  rw [hds] at htext
  cases htext

/-- **There is at most one way to cut a text.** -/
theorem Cut.unique {offset : Nat} {cs : List Char} {lexemes others : List Lexeme}
    (h : Cut offset cs lexemes) (hothers : Cut offset cs others) : lexemes = others := by
  induction h generalizing others with
  | done =>
    cases hothers with
    | done => rfl
    | token hfirst _ => exact absurd rfl hfirst.ne_nil
  | space hc _ ih =>
    cases hothers with
    | space _ hothers => exact ih hothers
    | token hfirst _ =>
      rw [hfirst.not_space] at hc
      cases hc
  | token hfirst _ ih =>
    cases hothers with
    | done => exact absurd rfl hfirst.ne_nil
    | space hc _ =>
      rw [hfirst.not_space] at hc
      cases hc
    | token hother hothers =>
      have heq := (readToken_eq_some_iff.mpr hfirst).symm.trans (readToken_eq_some_iff.mpr hother)
      cases heq
      rw [ih hothers]

/-- The tokens a text is cut into are spelled as they have to be, and each stands in the text
at its offset. -/
theorem Cut.stands {offset : Nat} {cs : List Char} {lexemes : List Lexeme}
    (h : Cut offset cs lexemes) : ∀ l ∈ lexemes, l.token.Spelled ∧
      ∃ before after, cs = before ++ l.token.text ++ after ∧
        l.offset = offset + before.length := by
  induction h with
  | done => exact fun l hl => nomatch hl
  | @space offset c cs lexemes hc _ ih =>
    intro l hl
    obtain ⟨hspelled, before, after, rfl, hoffset⟩ := ih l hl
    exact ⟨hspelled, c :: before, after, rfl, by rw [hoffset, List.length_cons]; omega⟩
  | @token offset cs rest token lexemes hfirst _ ih =>
    rw [← hfirst.text_append]
    refine List.forall_mem_cons.mpr ⟨⟨hfirst.spelled, [], rest, rfl, rfl⟩, fun l hl => ?_⟩
    obtain ⟨hspelled, before, after, rfl, hoffset⟩ := ih l hl
    refine ⟨hspelled, token.text ++ before, after, by simp only [List.append_assoc], ?_⟩
    rw [hoffset, List.length_append, Nat.add_assoc]

/-! ### What is due -/

theorem readMark_operator (cs : List Char) :
    readMark .operator cs =
      match behind? (Token.operator .notEqual).text cs with
      | some rest => some (.operator .notEqual, rest)
      | none => readMark .operand cs := by
  unfold readMark
  rw [show marksFor .operator = .operator .notEqual :: marksFor .operand from rfl,
    List.findSome?_cons]
  cases behind? (Token.operator .notEqual).text cs <;> rfl

/-- What is due makes a difference only where the text begins with `!=`. -/
theorem readToken_operator_of_behind? {cs : List Char}
    (h : behind? (Token.operator .notEqual).text cs = none) :
    readToken .operator cs = readToken .operand cs := by
  cases cs with
  | nil => rfl
  | cons c cs => rw [readToken, readToken, readMark_operator, h]

theorem readToken_operator_notEqual {cs rest : List Char}
    (h : behind? (Token.operator .notEqual).text cs = some rest) :
    readToken .operator cs = some (.operator .notEqual, rest) ∧
      readToken .operand cs = some (.bang, '=' :: rest) := by
  obtain rfl := behind?_append h
  constructor <;> rfl

/-- Where an operand is due, what begins with an equals sign is not read or is `==`. -/
theorem readToken_operand_equals {cs rest : List Char} {token : Token}
    (h : readToken .operand ('=' :: cs) = some (token, rest)) : token = .operator .equal := by
  have hall : ∀ t ∈ marksFor .operand, t.text.head? = some '=' → t = .operator .equal := by
    decide
  obtain ⟨hmem, htext⟩ := readMark_eq_some h
  refine hall token hmem ?_
  obtain ⟨c, more, hmore⟩ := List.exists_cons_of_ne_nil (text_ne_nil_of_mem_marksFor hmem)
  rw [hmore] at htext ⊢
  obtain ⟨rfl, -⟩ := List.cons.inj htext
  rfl

theorem Reader.due_of_step {r next : Reader} {lexeme : Lexeme} (h : r.step lexeme = some next) :
    next.due = lexeme.token.leads := by
  rcases lexeme with ⟨token, offset⟩
  cases r with
  | before stack =>
    simp only [Reader.step] at h
    cases token with
    | operator op =>
      cases op with
      | subtract =>
        cases h
        rfl
      | _ => cases h
    | closeParen =>
      simp only [Reader.stepBefore] at h
      split at h
      · cases h
        rfl
      · cases h
    | number | bool | quoted | name | bang | openParen =>
      cases h
      rfl
    | _ => cases h
  | behind stack p =>
    simp only [Reader.step] at h
    cases token with
    | operator op =>
      simp only [Reader.stepBehind, Reader.readBinary] at h
      repeat' split at h
      all_goals cases h
      all_goals rfl
    | colon | comma | openParen | closeParen | closeBracket =>
      simp only [Reader.stepBehind] at h
      split at h <;> cases h
      all_goals rfl
    | question | openBracket =>
      cases h
      rfl
    | _ => cases h

/-! ### Lexing with and without knowing what is due -/

theorem tokens_nil (due : Due) (offset : Nat) : tokens due offset [] = ⟨[], none⟩ := by
  rw [tokens]

theorem tokens_space (due : Due) (offset : Nat) {c : Char} (hc : isSpace c = true)
    (cs : List Char) : tokens due offset (c :: cs) = tokens due (offset + 1) cs := by
  rw [tokens, if_pos hc]

theorem tokens_token {due : Due} (offset : Nat) {c : Char} {cs rest : List Char} {token : Token}
    (hc : isSpace c = false) (h : readToken due (c :: cs) = some (token, rest)) :
    tokens due offset (c :: cs) =
      ⟨⟨token, offset⟩ :: (tokens token.leads (offset + token.text.length) rest).lexemes,
        (tokens token.leads (offset + token.text.length) rest).stuck⟩ := by
  rw [tokens, if_neg (by simp [hc])]
  split <;> simp_all

theorem tokens_stuck {due : Due} (offset : Nat) {c : Char} {cs : List Char}
    (hc : isSpace c = false) (h : readToken due (c :: cs) = none) :
    tokens due offset (c :: cs) = ⟨[], some (c, offset)⟩ := by
  rw [tokens, if_neg (by simp [hc])]
  split <;> simp_all

/-- What is the longest token stays so where the text ends earlier. -/
theorem IsLongest.truncate {token : Token} {a b : List Char}
    (h : IsLongest (token.text ++ (a ++ b)) token (a ++ b)) :
    IsLongest (token.text ++ a) token a := by
  refine ⟨h.spelled, rfl, fun other hother hfront => h.longest other hother ?_⟩
  rw [← List.append_assoc]
  exact hfront.trans (List.prefix_append _ _)

/-- A token at which a reader goes on is the longest one in the part of a text that the
reader accepts, whatever is due. -/
theorem isLongest_of_readToken {r r' next : Reader} {a b : List Char} {token : Token}
    {offset start : Nat} {lexemes : List Lexeme}
    (h : readToken r.due (token.text ++ (a ++ b)) = some (token, a ++ b))
    (hstep : r.step ⟨token, start⟩ = some next) (hcut : Cut offset a lexemes)
    (hrun : next.run lexemes = .ok r') : IsLongest (token.text ++ a) token a := by
  cases r with
  | behind stack p => exact (readToken_eq_some_iff.mp h).truncate
  | before stack =>
    cases hbehind : behind? (Token.operator .notEqual).text (token.text ++ (a ++ b)) with
    | none =>
      refine IsLongest.truncate (b := b) (readToken_eq_some_iff.mp ?_)
      rw [readToken_operator_of_behind? hbehind]
      exact h
    | some left =>
      -- the exclamation mark is read alone, so the equals sign comes where an operand is due
      obtain ⟨rfl, hequals⟩ : token = .bang ∧ a ++ b = '=' :: left := by
        simpa using h.symm.trans (readToken_operator_notEqual hbehind).2
      obtain rfl : next = .before (.unary start .not :: stack) := (Option.some.inj hstep).symm
      cases hcut with
      | done => exact readToken_eq_some_iff.mp rfl
      | space hc =>
        cases hequals
        cases hc
      | token hfirst =>
        -- nothing that begins with an equals sign is an operand
        obtain ⟨c, cs, rfl⟩ := List.exists_cons_of_ne_nil hfirst.ne_nil
        obtain rfl : c = '=' := (List.cons.inj hequals).1
        have hread := readToken_eq_some_iff.mpr hfirst
        rw [readToken_operator_of_behind? rfl] at hread
        obtain rfl := readToken_operand_equals hread
        cases hrun

/-- The longest token is read whatever is due, if a reader goes on at it. -/
theorem IsLongest.readToken_due {cs rest : List Char} {token : Token}
    (h : IsLongest cs token rest) {r next : Reader} {offset : Nat}
    (hstep : r.step ⟨token, offset⟩ = some next) :
    readToken r.due cs = some (token, rest) := by
  have hread := readToken_eq_some_iff.mpr h
  cases r with
  | behind stack p => exact hread
  | before stack =>
    cases hbehind : behind? (Token.operator .notEqual).text cs with
    | none =>
      rw [readToken_operator_of_behind? hbehind] at hread
      exact hread
    | some left =>
      -- no operand begins with the operator that is the longest token
      cases hread.symm.trans (readToken_operator_notEqual hbehind).1
      cases hstep

/-- **The tokens a reader accepts cut a part of the text**, and what is left of it begins
with the other tokens. -/
theorem split_of_tokens {r r' : Reader} {offset : Nat} {cs : List Char}
    {lexemes more : List Lexeme} {stuck : Option (Char × Nat)}
    (h : tokens r.due offset cs = ⟨lexemes ++ more, stuck⟩) (hrun : r.run lexemes = .ok r') :
    ∃ a b, cs = a ++ b ∧ Cut offset a lexemes ∧ (∀ c ∈ b.head?, isSpace c = false) ∧
      tokens r'.due (offset + a.length) b = ⟨more, stuck⟩ := by
  induction hlen : cs.length using Nat.strongRecOn generalizing r offset cs lexemes with
  | ind n ih =>
    cases cs with
    | nil =>
      rw [tokens_nil, Lexed.mk.injEq, eq_comm, List.append_eq_nil_iff] at h
      obtain ⟨⟨rfl, rfl⟩, rfl⟩ := h
      exact ⟨[], [], rfl, .done offset, by simp, tokens_nil _ _⟩
    | cons c cs =>
      cases hc : isSpace c with
      | true =>
        rw [tokens_space _ _ hc] at h
        obtain ⟨a, b, rfl, hcut, hb, hmore⟩ := ih cs.length (by simp [← hlen]) h hrun rfl
        refine ⟨c :: a, b, rfl, .space hc hcut, hb, ?_⟩
        rwa [List.length_cons, Nat.add_comm a.length, ← Nat.add_assoc]
      | false =>
        cases lexemes with
        | nil =>
          cases hrun
          exact ⟨[], c :: cs, rfl, .done offset, by simpa using hc, h⟩
        | cons lexeme lexemes =>
          cases hread : readToken r.due (c :: cs) with
          | none =>
            rw [tokens_stuck offset hc hread] at h
            cases h
          | some found =>
            obtain ⟨token, rest⟩ := found
            rw [tokens_token offset hc hread, Lexed.mk.injEq, List.cons_append] at h
            obtain ⟨hall, hstuck⟩ := h
            obtain ⟨rfl, hlexemes⟩ := List.cons.inj hall
            obtain ⟨next, hstep, hnext⟩ := Reader.run_cons_eq_ok.mp hrun
            -- what is due behind the token is what the reader waits for there
            have hdue : next.due = token.leads := Reader.due_of_step hstep
            have hrest : tokens next.due (offset + token.text.length) rest =
                ⟨lexemes ++ more, stuck⟩ := by
              rw [hdue, ← hlexemes, ← hstuck]
            have hshort := readToken_length hread
            have htext := readToken_text hread
            obtain ⟨a, b, rfl, hcut, hb, hmore⟩ := ih rest.length (hlen ▸ hshort) hrest hnext rfl
            rw [← htext] at hread ⊢
            refine ⟨token.text ++ a, b, (List.append_assoc _ _ _).symm,
              .token (isLongest_of_readToken hread hstep hcut hnext) hcut, hb, ?_⟩
            rwa [List.length_append, ← Nat.add_assoc]

theorem cut_of_tokens {r r' : Reader} {offset : Nat} {cs : List Char} {lexemes : List Lexeme}
    (h : tokens r.due offset cs = ⟨lexemes, none⟩) (hrun : r.run lexemes = .ok r') :
    Cut offset cs lexemes := by
  rw [← List.append_nil lexemes] at h
  obtain ⟨a, b, rfl, hcut, hb, hnone⟩ := split_of_tokens h hrun
  -- nothing is left, since neither white space nor a token comes first in it
  cases b with
  | nil => rwa [List.append_nil]
  | cons c b =>
    have hc : isSpace c = false := hb c rfl
    cases hread : readToken r'.due (c :: b) with
    | none =>
      rw [tokens_stuck _ hc hread] at hnone
      cases hnone
    | some found =>
      rw [tokens_token _ hc hread] at hnone
      cases hnone

theorem tokens_of_cut {r r' : Reader} {offset : Nat} {cs : List Char} {lexemes : List Lexeme}
    (h : Cut offset cs lexemes) (hrun : r.run lexemes = .ok r') :
    tokens r.due offset cs = ⟨lexemes, none⟩ := by
  induction h generalizing r with
  | done offset => exact tokens_nil _ _
  | space hc _ ih =>
    rw [tokens_space _ _ hc]
    exact ih hrun
  | @token offset cs rest token lexemes hfirst _ ih =>
    obtain ⟨c, cs, rfl⟩ := List.exists_cons_of_ne_nil hfirst.ne_nil
    obtain ⟨next, hstep, hrun⟩ := Reader.run_cons_eq_ok.mp hrun
    rw [tokens_token offset hfirst.not_space (hfirst.readToken_due hstep),
      ← Reader.due_of_step hstep, ih hrun]

/-- **Knowing what is due makes no difference to a text that is accepted.** -/
theorem tokens_eq_iff_cut {r r' : Reader} {offset : Nat} {cs : List Char}
    {lexemes : List Lexeme} (hrun : r.run lexemes = .ok r') :
    tokens r.due offset cs = ⟨lexemes, none⟩ ↔ Cut offset cs lexemes :=
  ⟨fun h => cut_of_tokens h hrun, fun h => tokens_of_cut h hrun⟩

end Interpolation.Template
