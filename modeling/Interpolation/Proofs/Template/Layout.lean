/-
Tokens laid out with white space.

* `IsLongest.extend` — white space ends a token;
* `Spaced` — how tokens can be laid out in a text with white space between them;
* `Spaced.cut` — tokens laid out with white space are found again.

Design notes: string literals are left out, since they may hold white space themselves.
All other tokens are written with plain characters only (`IsPlain`), so nothing longer than
a token can end beyond the white space behind it.
-/
import Interpolation.Proofs.Template.Lexing
import Interpolation.Text.Blank

namespace Interpolation.Template

open Lexer

/-! ### Plain tokens -/

/-- Characters of the tokens that are not string literals. -/
def IsPlain (c : Char) : Prop :=
  33 ≤ c.toNat ∧ c.toNat ≤ 126 ∧ c ≠ '"' ∧ c ≠ '\x7b' ∧ c ≠ '\x7d'

instance : DecidablePred IsPlain :=
  fun _ => inferInstanceAs (Decidable (_ ∧ _))

theorem IsPlain.not_space {c : Char} (h : IsPlain c) : isSpace c = false := by
  rw [Bool.eq_false_iff, ne_eq, isSpace_iff]
  rintro (rfl | rfl | rfl | rfl | rfl) <;> revert h <;> decide

theorem IsPlain.not_blank {c : Char} (h : IsPlain c) : blanks.contains c = false := by
  obtain ⟨hlo, hhi, -⟩ := h
  have h9 : ¬ c.toNat ≤ 0xD := by omega
  have h32 : ¬ c.toNat ≤ 0x20 := by omega
  have h85 : c.toNat < 0x85 := by omega
  simp [blanks, CharSet.contains, CharSet.covers, h9, h32, h85]

theorem isPlain_of_toNat {c : Char} (hlo : 35 ≤ c.toNat) (hhi : c.toNat ≤ 122) : IsPlain c := by
  refine ⟨by omega, by omega, ?_, ?_, ?_⟩
  · rintro rfl
    exact absurd hlo (by decide)
  · rintro rfl
    exact absurd hhi (by decide)
  · rintro rfl
    exact absurd hhi (by decide)

theorem isPlain_of_isDigit {c : Char} (h : c.isDigit = true) : IsPlain c := by
  have hcode : 48 ≤ c.toNat ∧ c.toNat ≤ 57 := Char.isDigit_iff_toNat.mp h
  exact isPlain_of_toNat (by omega) (by omega)

theorem isPlain_of_startsName {c : Char} (h : startsName c = true) : IsPlain c := by
  rw [startsName_iff] at h
  exact isPlain_of_toNat (by omega) (by omega)

theorem isPlain_of_continuesName {c : Char} (h : continuesName c = true) : IsPlain c := by
  rcases continuesName_iff.mp h with h | h | rfl
  · exact isPlain_of_startsName h
  · exact isPlain_of_isDigit h
  · decide

theorem IsNumber.isPlain {digits : List Char} (h : IsNumber digits) : ∀ c ∈ digits, IsPlain c := by
  rcases h with ⟨-, h⟩ | ⟨whole, fraction, ⟨-, hwhole⟩, ⟨-, hfraction⟩, rfl⟩
  · exact fun c hc => isPlain_of_isDigit (h c hc)
  · refine List.forall_mem_append.mpr ⟨fun c hc => isPlain_of_isDigit (hwhole c hc), ?_⟩
    exact List.forall_mem_cons.mpr ⟨by decide, fun c hc => isPlain_of_isDigit (hfraction c hc)⟩

theorem IsSegment.isPlain {segment : List Char} (h : IsSegment segment) :
    ∀ c ∈ segment, IsPlain c := by
  rcases h with rfl | ⟨-, h⟩
  · exact List.forall_mem_singleton.mpr (by decide)
  · exact fun c hc => isPlain_of_continuesName (h c hc)

theorem IsName.isPlain {name : List Char} (h : IsName name) : ∀ c ∈ name, IsPlain c := by
  obtain ⟨c, first, segments, hc, hfirst, hsegments, rfl⟩ := h
  refine List.forall_mem_append.mpr ⟨List.forall_mem_cons.mpr ⟨isPlain_of_startsName hc, ?_⟩, ?_⟩
  · exact fun x hx => isPlain_of_continuesName (hfirst x hx)
  · intro x hx
    obtain ⟨segment, hsegment, hx⟩ := List.mem_flatMap.mp hx
    rcases List.mem_cons.mp hx with rfl | hx
    · decide
    · exact (hsegments segment hsegment).isPlain x hx

theorem isPlain_of_mem_marksFor {token : Token} (h : token ∈ marksFor .operator) :
    ∀ c ∈ token.text, IsPlain c := by
  have hall : ∀ t ∈ marksFor .operator, t.text.all (fun c => decide (IsPlain c)) = true := by
    decide
  exact fun c hc => of_decide_eq_true (List.all_eq_true.mp (hall token h) c hc)

/-- All tokens but string literals are written with plain characters. -/
theorem Token.Spelled.isPlain {token : Token} (h : token.Spelled) :
    (∃ body, token = .quoted body) ∨ ∀ c ∈ token.text, IsPlain c := by
  rcases h.cases with ⟨body, -, rfl⟩ | ⟨digits, hdigits, rfl⟩ | ⟨word, hword, rfl⟩ | hmark
  · exact .inl ⟨body, rfl⟩
  · exact .inr hdigits.isPlain
  · rw [Token.text_ofWord]
    exact .inr hword.isPlain
  · exact .inr (isPlain_of_mem_marksFor hmark)

/-- Tokens as they should be, string literals left out. -/
structure Token.Plain (token : Token) : Prop where
  spelled : token.Spelled
  isPlain : ∀ c ∈ token.text, IsPlain c

/-- The tokens with a fixed spelling are plain. -/
theorem plain_mark {token : Token} (h : token ∈ marksFor .operator) : token.Plain :=
  ⟨spelled_of_mem_marksFor h, isPlain_of_mem_marksFor h⟩

theorem plain_operator (op : BinaryOp) : (Token.operator op).Plain :=
  plain_mark (by cases op <;> decide)

theorem plain_unaryToken (op : UnaryOp) : (Phrase.unaryToken op).Plain :=
  plain_mark (by cases op <;> decide)

theorem plain_name {name : List Char} (hname : IsName name) (hword : ¬ IsKeyword name) :
    (Token.name name).Plain :=
  ⟨⟨hname, hword⟩, hname.isPlain⟩

/-! ### White space between tokens -/

/-- Tokens are laid out in a text with white space around them: behind each token the text
is over or goes on with white space. -/
inductive Spaced : List Token → List Char → Prop where
  | done : Spaced [] []
  | space {c : Char} {tokens : List Token} {cs : List Char} (hc : isSpace c = true)
    (h : Spaced tokens cs) : Spaced tokens (c :: cs)
  | token {token : Token} {tokens : List Token} {cs : List Char}
    (hgap : ∀ c ∈ cs.head?, isSpace c = true) (h : Spaced tokens cs) :
    Spaced (token :: tokens) (token.text ++ cs)

theorem Spaced.before_space {tokens : List Token} {cs : List Char} {c : Char}
    (hc : isSpace c = true) (h : Spaced tokens cs) (token : Token) :
    Spaced (token :: tokens) (token.text ++ c :: cs) := by
  refine .token ?_ (.space hc h)
  rintro d hd
  cases hd
  exact hc

theorem exists_spaced (tokens : List Token) : ∃ text, Spaced tokens text := by
  induction tokens with
  | nil => exact ⟨[], .done⟩
  | cons token tokens ih =>
    obtain ⟨text, h⟩ := ih
    exact ⟨_, h.before_space (show isSpace ' ' = true from rfl) token⟩

/-- Text behind white space does not change which token is the longest at the front. -/
theorem IsLongest.extend {cs rest : List Char} {token : Token} (h : IsLongest cs token rest)
    (hquote : '"' ∉ cs) {behind : List Char} (hgap : ∀ c ∈ behind.head?, isSpace c = true) :
    IsLongest (cs ++ behind) token (rest ++ behind) := by
  refine ⟨h.spelled, by rw [← List.append_assoc, h.text_append], fun other hother hfront => ?_⟩
  by_contra hlong
  -- a longer token takes in all there was, and more
  have hout : ¬ other.text.length ≤ cs.length := by
    intro hle
    have hin := List.prefix_of_prefix_length_le hfront (List.prefix_append cs behind) hle
    exact hlong (h.longest other hother hin)
  obtain ⟨more, hmore⟩ := List.prefix_of_prefix_length_le (List.prefix_append cs behind) hfront
    (by omega)
  rcases hother.isPlain with ⟨body, rfl⟩ | hplain
  · -- a string literal begins with a quote
    obtain ⟨c, cs, rfl⟩ := List.exists_cons_of_ne_nil h.ne_nil
    obtain rfl : c = '"' := (List.cons.inj hmore).1
    exact hquote List.mem_cons_self
  · -- any other token would hold the white space
    cases more with
    | nil =>
      rw [List.append_nil] at hmore
      exact hout (Nat.le_of_eq (congrArg List.length hmore.symm))
    | cons d more =>
      have hd : d ∈ behind.head? := by
        rw [← hmore, List.prefix_append_right_inj] at hfront
        obtain ⟨left, rfl⟩ := hfront
        rfl
      have hspace := hgap d hd
      rw [(hplain d (by rw [← hmore]; simp)).not_space] at hspace
      cases hspace

/-- A token with white space behind it is the longest one. -/
theorem Token.Plain.isLongest {token : Token} (h : token.Plain) {cs : List Char}
    (hgap : ∀ c ∈ cs.head?, isSpace c = true) : IsLongest (token.text ++ cs) token cs := by
  have halone : IsLongest token.text token [] :=
    ⟨h.spelled, List.append_nil _, fun other _ hfront => hfront.length_le⟩
  have hquote : '"' ∉ token.text := fun hmem => (h.isPlain '"' hmem).2.2.1 rfl
  exact halone.extend hquote hgap

/-- **Tokens laid out with white space are found again.** -/
theorem Spaced.cut {tokens : List Token} {text : List Char} (h : Spaced tokens text)
    (hplain : ∀ t ∈ tokens, t.Plain) (offset : Nat) :
    ∃ lexemes, lexemes.map Lexeme.token = tokens ∧ Cut offset text lexemes := by
  induction h generalizing offset with
  | done => exact ⟨[], rfl, .done offset⟩
  | space hc _ ih =>
    obtain ⟨lexemes, htokens, hcut⟩ := ih hplain (offset + 1)
    exact ⟨lexemes, htokens, .space hc hcut⟩
  | @token token tokens cs hgap _ ih =>
    obtain ⟨hfirst, hrest⟩ := List.forall_mem_cons.mp hplain
    obtain ⟨lexemes, htokens, hcut⟩ := ih hrest (offset + token.text.length)
    exact ⟨⟨token, offset⟩ :: lexemes, by rw [List.map_cons, htokens],
      .token (hfirst.isLongest hgap) hcut⟩

theorem Spaced.subset {tokens : List Token} {text : List Char} (h : Spaced tokens text)
    {token : Token} (htoken : token ∈ tokens) : token.text ⊆ text := by
  induction h with
  | done => cases htoken
  | space _ _ ih => exact List.subset_cons_of_subset _ (ih htoken)
  | @token first tokens cs _ _ ih =>
    rcases List.mem_cons.mp htoken with rfl | htoken
    · exact List.subset_append_left _ _
    · exact List.subset_append_of_subset_right _ (ih htoken)

theorem Spaced.mem {tokens : List Token} {text : List Char} (h : Spaced tokens text) {c : Char}
    (hc : c ∈ text) : isSpace c = true ∨ ∃ token ∈ tokens, c ∈ token.text := by
  induction h with
  | done => cases hc
  | space hspace _ ih =>
    rcases List.mem_cons.mp hc with rfl | hc
    · exact .inl hspace
    · exact ih hc
  | @token token tokens cs _ _ ih =>
    rcases List.mem_append.mp hc with hc | hc
    · exact .inr ⟨token, List.mem_cons_self, hc⟩
    · rcases ih hc with hspace | ⟨other, hother, hc⟩
      · exact .inl hspace
      · exact .inr ⟨other, List.mem_cons_of_mem _ hother, hc⟩

/-- Tokens are not blank. -/
theorem Spaced.not_blank {tokens : List Token} {text : List Char} (h : Spaced tokens text)
    (hplain : ∀ t ∈ tokens, t.Plain) (hne : tokens ≠ []) : isBlank text = false := by
  obtain ⟨token, rest, rfl⟩ := List.exists_cons_of_ne_nil hne
  have hfirst := hplain token List.mem_cons_self
  obtain ⟨c, cs, htext, -⟩ := hfirst.spelled.head_not_space
  have hc : c ∈ token.text := by
    rw [htext]
    exact List.mem_cons_self
  rw [isBlank, List.all_eq_false]
  refine ⟨c, h.subset List.mem_cons_self hc, ?_⟩
  rw [(hfirst.isPlain c hc).not_blank]
  decide

end Interpolation.Template
