/-
A syntax error is found at the first place where a source cannot go on.

* `Begins` — a text begins with tokens, each the longest one where it stands;
* `halts_of_readPhrase` — where reading an expression fails, and why the reader does not go
  on there;
* `not_begins_of_step`, `doubled_of_begins` — no source goes on with what was found there;
* `parse_error_isFirstFault` — the position of an error is that of the first fault;
* `parse_error_loneEquals` — an error at a character that another source goes on with.

Design notes: what follows the place of an error has not been read, so nothing is said of it
but what stands there: a token that the reader refuses, or a character that begins no token.
A source that begins with the same tokens and the refused one would be read by the same reader
apart from offsets.  A character that begins no token here may begin one in another text.  For
three of them it does: they are written twice in an operator, and an error at a lone one is
found at it and not behind it.
-/
import Interpolation.Proofs.Template.Viability

namespace Interpolation.Template

open Lexer Reader

/-! ### Beginnings of texts -/

/-- A text begins with tokens, and goes on with the given rest. -/
inductive Begins : List Char → List Token → List Char → Prop where
  | done (rest : List Char) : Begins rest [] rest
  | space {c : Char} {cs rest : List Char} {tokens : List Token} (hc : isSpace c = true)
    (h : Begins cs tokens rest) : Begins (c :: cs) tokens rest
  | token {cs behind rest : List Char} {token : Token} {tokens : List Token}
    (hfirst : IsLongest cs token behind) (h : Begins behind tokens rest) :
    Begins cs (token :: tokens) rest

theorem Cut.begins {offset : Nat} {cs : List Char} {lexemes : List Lexeme}
    (h : Cut offset cs lexemes) : Begins cs (lexemes.map Lexeme.token) [] := by
  induction h with
  | done => exact .done []
  | space hc _ ih => exact .space hc ih
  | token hfirst _ ih => exact .token hfirst ih

/-- The tokens at the beginning of a text are the first ones it is cut into. -/
theorem Begins.cut {cs rest : List Char} {tokens : List Token} (h : Begins cs tokens rest)
    {offset : Nat} {lexemes : List Lexeme} (hcut : Cut offset cs lexemes) :
    ∃ ls more place, lexemes = ls ++ more ∧ ls.map Lexeme.token = tokens ∧
      Cut place rest more := by
  induction h generalizing offset lexemes with
  | done => exact ⟨[], lexemes, offset, rfl, rfl, hcut⟩
  | space hc _ ih =>
    cases hcut with
    | space _ hcut => exact ih hcut
    | token hother =>
      rw [hother.not_space] at hc
      cases hc
  | token hfirst _ ih =>
    cases hcut with
    | done => exact absurd rfl hfirst.ne_nil
    | space hc =>
      rw [hfirst.not_space] at hc
      cases hc
    | token hother hcut =>
      have heq := (readToken_eq_some_iff.mpr hfirst).symm.trans (readToken_eq_some_iff.mpr hother)
      cases heq
      obtain ⟨ls, more, place, rfl, htokens, hmore⟩ := ih hcut
      exact ⟨_ :: ls, more, place, rfl, by rw [List.map_cons, htokens], hmore⟩

/-! ### Where reading an expression fails -/

/-- Why a reader does not go on with the rest of a text. -/
inductive Reader.Halts (r : Reader) (offset : Nat) : List Char → Prop where
  | ended (h : r.result? = none) : Halts r offset []
  | token {cs rest : List Char} {token : Token} (hfirst : IsLongest cs token rest)
    (hstep : r.step ⟨token, offset⟩ = none) : Halts r offset cs
  | character {c : Char} {cs : List Char} (hc : isSpace c = false)
    (hnone : ∀ token rest, ¬ IsLongest (c :: cs) token rest) : Halts r offset (c :: cs)

/-- A token that a reader refuses is the longest one, whatever is due. -/
theorem isLongest_of_refused {r : Reader} {cs rest : List Char} {token : Token} {offset : Nat}
    (h : readToken r.due cs = some (token, rest)) (hstep : r.step ⟨token, offset⟩ = none) :
    IsLongest cs token rest := by
  rw [← readToken_eq_some_iff]
  cases r with
  | behind stack p => exact h
  | before stack =>
    cases hbehind : behind? (Token.operator .notEqual).text cs with
    | none =>
      rw [readToken_operator_of_behind? hbehind]
      exact h
    | some left =>
      -- an exclamation mark is never refused where an operand is due
      cases h.symm.trans (readToken_operator_notEqual hbehind).2
      cases hstep

/-- Where no token is read there is none, whatever is due. -/
theorem not_isLongest_of_readToken {due : Due} {cs : List Char} (h : readToken due cs = none)
    (token : Token) (rest : List Char) : ¬ IsLongest cs token rest := by
  intro hfirst
  have hread := readToken_eq_some_iff.mpr hfirst
  cases due with
  | operator =>
    rw [h] at hread
    cases hread
  | operand =>
    cases hbehind : behind? (Token.operator .notEqual).text cs with
    | none =>
      rw [readToken_operator_of_behind? hbehind, h] at hread
      cases hread
    | some left =>
      rw [(readToken_operator_notEqual hbehind).2] at h
      cases h

/-- **Where reading an expression fails**: the tokens before that place are accepted, and the
reader does not go on with what is there. -/
theorem halts_of_readPhrase {offset place : Nat} {source : List Char}
    {cause : SyntaxError.Cause} (h : readPhrase offset source = .error (cause, place)) :
    ∃ a b lexemes r, source = a ++ b ∧ Cut offset a lexemes ∧ start.run lexemes = .ok r ∧
      place = offset + a.length ∧ r.Halts (offset + a.length) b := by
  generalize hlexed : Lexer.tokens .operand offset source = lexed at h
  obtain ⟨lexemes, stuck⟩ := lexed
  simp only [readPhrase, hlexed] at h
  cases hrun : start.run lexemes with
  | error bad =>
    simp only [hrun] at h
    cases h
    obtain ⟨taken, others, r, rfl, htaken, hstep⟩ := run_error hrun
    obtain ⟨a, b, rfl, hcut, hb, hmore⟩ := split_of_tokens (r := start) hlexed htaken
    obtain ⟨c, cs, rfl⟩ : ∃ c cs, b = c :: cs := by
      refine List.exists_cons_of_ne_nil ?_
      rintro rfl
      rw [tokens_nil] at hmore
      cases hmore
    have hc : isSpace c = false := hb c rfl
    cases hread : readToken r.due (c :: cs) with
    | none =>
      rw [tokens_stuck _ hc hread] at hmore
      cases hmore
    | some found =>
      obtain ⟨token, rest⟩ := found
      rw [tokens_token _ hc hread] at hmore
      obtain ⟨rfl, -⟩ := List.cons.inj (Lexed.mk.inj hmore).1
      exact ⟨a, c :: cs, taken, r, rfl, hcut, htaken, rfl,
        .token (isLongest_of_refused hread hstep) hstep⟩
  | ok r =>
    simp only [hrun] at h
    rw [← List.append_nil lexemes] at hlexed
    obtain ⟨a, b, rfl, hcut, hb, hmore⟩ := split_of_tokens (r := start) hlexed hrun
    cases b with
    | nil =>
      rw [tokens_nil] at hmore
      cases hmore
      simp only [List.append_nil] at h ⊢
      split at h
      · cases h
      · next hresult =>
        cases h
        exact ⟨a, [], lexemes, r, (List.append_nil a).symm, hcut, hrun, rfl, .ended hresult⟩
    | cons c cs =>
      have hc : isSpace c = false := hb c rfl
      cases hread : readToken r.due (c :: cs) with
      | some found =>
        rw [tokens_token _ hc hread] at hmore
        cases hmore
      | none =>
        rw [tokens_stuck _ hc hread] at hmore
        cases hmore
        cases h
        exact ⟨a, c :: cs, lexemes, r, rfl, hcut, hrun, rfl,
          .character hc (not_isLongest_of_readToken hread)⟩

/-! ### What no source goes on with -/

variable {Owner : Type}

/-- No string literals and no braces are written in a text. -/
def Unquoted (cs : List Char) : Prop :=
  ∀ c ∈ cs, c ≠ '"' ∧ c ≠ '\x7b' ∧ c ≠ '\x7d'

/-- No digits in a row are more than a number may have. -/
def ShortRuns (cs : List Char) : Prop :=
  ∀ run, run <:+: cs → (∀ c ∈ run, c.isDigit = true) → run.length ≤ Digits.digitLimit

theorem shortRuns_of_length_le {cs : List Char} (h : cs.length ≤ Digits.digitLimit) :
    ShortRuns cs := by
  intro run hrun _
  exact hrun.length_le.trans h

theorem IsSource.exists_cut {source : List Char} (h : IsSource Owner source) :
    ∃ lexemes p, Cut 0 source lexemes ∧ Derives .expr p lexemes := by
  obtain ⟨m, hm⟩ := h.meaning
  exact exists_cut_of_meaning hm

/-- **No source goes on with a token that the reader refuses.** -/
theorem not_begins_of_step {lexemes : List Lexeme} {r : Reader} {bad : Lexeme}
    (hrun : start.run lexemes = .ok r) (hstep : r.step bad = none) {source : List Char}
    (hsource : IsSource Owner source) (rest : List Char) :
    ¬ Begins source (lexemes.map Lexeme.token ++ [bad.token]) rest := by
  intro hbegins
  obtain ⟨others, p, hcut, d, rfl, rfl⟩ := hsource.exists_cut
  obtain ⟨ls, more, place, hyield, htokens, -⟩ := hbegins.cut hcut
  -- the tokens of the source are derived as well where the reader has met them
  have hlabels : (lexemes ++ bad :: more).map Lexeme.token = d.yield.map Lexeme.token := by
    rw [hyield, List.map_append, List.map_append, htokens, List.map_cons, List.append_assoc]
    rfl
  obtain ⟨d', hd'⟩ := d.relabel hlabels
  obtain ⟨last, hlast, -⟩ := d'.run
  rw [hd', run_append, hrun] at hlast
  obtain ⟨next, hnext, -⟩ := run_cons_eq_ok.mp hlast
  rw [hstep] at hnext
  cases hnext

/-- A token may be cut down to its first character, unless that is a quote or the token is
one of three operators. -/
theorem Token.Spelled.head_or_doubled {token : Token} (h : token.Spelled) {c : Char}
    {cs : List Char} (htext : token.text = c :: cs) (hquote : c ≠ '"') :
    (∃ other : Token, other.Spelled ∧ other.text = [c]) ∨
      (c = '&' ∨ c = '|' ∨ c = '=') ∧ cs = [c] := by
  obtain ⟨d, ds, hds, hhead⟩ := h.head
  obtain ⟨rfl, rfl⟩ := List.cons.inj (hds.symm.trans htext)
  cases hhead with
  | quoted hc => exact absurd hc hquote
  | number _ hdigit =>
    refine .inl ⟨.number [d], .inl ⟨List.cons_ne_nil _ _, ?_⟩, rfl⟩
    simpa using hdigit
  | word _ _ hname =>
    refine .inl ⟨.ofWord [d], Token.spelled_ofWord ?_, Token.text_ofWord _⟩
    exact ⟨d, [], [], hname, by simp, by simp, rfl⟩
  | mark _ _ _ hmark =>
    have hmarks : ∀ t ∈ marksFor .operator,
        (∃ other ∈ marksFor .operator, other.text = t.text.take 1) ∨
          t.text ∈ [['&', '&'], ['|', '|'], ['=', '=']] := by decide
    rcases hmarks token hmark with ⟨other, hother, hone⟩ | hdoubled
    · rw [htext] at hone
      exact .inl ⟨other, spelled_of_mem_marksFor hother, hone⟩
    · rw [htext] at hdoubled
      right
      simp only [List.mem_cons, List.cons.injEq, List.not_mem_nil, or_false] at hdoubled
      obtain ⟨rfl, rfl⟩ | ⟨rfl, rfl⟩ | ⟨rfl, rfl⟩ := hdoubled <;> simp

/-- **A source goes on with a character that begins no token elsewhere** only where the
character is doubled in an operator, which it is not elsewhere. -/
theorem doubled_of_begins {c : Char} {cs : List Char} (hc : isSpace c = false)
    (hquote : c ≠ '"') (hnone : ∀ token rest, ¬ IsLongest (c :: cs) token rest)
    {source : List Char} (hsource : IsSource Owner source) {tokens : List Token}
    {rest : List Char} (hbegins : Begins source tokens (c :: rest)) :
    (c = '&' ∨ c = '|' ∨ c = '=') ∧ rest.head? = some c ∧ cs.head? ≠ some c := by
  -- no token at all can be at the front of the text
  have hfront : ∀ token : Token, token.Spelled → ¬ token.text <+: c :: cs := by
    rintro token hspelled ⟨left, hleft⟩
    obtain ⟨read, behind, hread, -⟩ := readToken_longest hspelled left
    rw [hleft] at hread
    exact hnone read behind (readToken_eq_some_iff.mp hread)
  obtain ⟨lexemes, p, hcut, -⟩ := hsource.exists_cut
  obtain ⟨ls, more, place, -, -, hmore⟩ := hbegins.cut hcut
  cases hmore with
  | space hspace =>
    rw [hc] at hspace
    cases hspace
  | @token _ _ behind token _ hfirst =>
    obtain ⟨d, ds, hds, -⟩ := hfirst.spelled.head_not_space
    have htext := hfirst.text_append
    rw [hds] at htext
    obtain ⟨rfl, rfl⟩ := List.cons.inj htext
    rcases hfirst.spelled.head_or_doubled hds hquote with ⟨other, hother, hone⟩ | ⟨hmark, rfl⟩
    · exact absurd ⟨cs, by rw [hone]; rfl⟩ (hfront other hother)
    · refine ⟨hmark, rfl, ?_⟩
      intro hhead
      obtain ⟨left, rfl⟩ := List.head?_eq_some_iff.mp hhead
      exact hfront token hfirst.spelled ⟨left, by rw [hds]; rfl⟩

/-! ### The first fault -/

/-- A number whose runs of digits are short has a value. -/
theorem isSome_ofUnsigned? {digits : List Char} (h : IsNumber digits) (hshort : ShortRuns digits) :
    (Number.ofUnsigned? false digits).isSome := by
  rcases h with ⟨hne, hdigits⟩ | ⟨whole, fraction, ⟨hne, hwhole⟩, ⟨hne', hfraction⟩, rfl⟩
  · rw [Number.ofUnsigned?_digits hne hdigits, Digits.toNat?,
      if_pos (hshort digits (List.infix_refl _) hdigits)]
    rfl
  · rw [Number.ofUnsigned?_point hne hwhole hne' hfraction]
    rfl

/-- The tokens of a text without quotes and long numbers have their values. -/
theorem Cut.forall_isSure {offset : Nat} {cs source : List Char} {lexemes : List Lexeme}
    (h : Cut offset cs lexemes) (hin : cs <:+: source) (hquotes : Unquoted source)
    (hshort : ShortRuns source) : ∀ l ∈ lexemes, l.token.IsSure := by
  intro l hl
  obtain ⟨hspelled, hpart⟩ := h.forall_infix l hl
  obtain ⟨token, place⟩ := l
  cases token with
  | number digits =>
    have hrun : digits <:+: source := hpart.trans hin
    exact isSome_ofUnsigned? hspelled fun run hrun' => hshort run (hrun'.trans hrun)
  | quoted body =>
    have hmem : '"' ∈ source := (hpart.trans hin).subset List.mem_cons_self
    exact ((hquotes _ hmem).1 rfl).elim
  | _ => trivial

/-- What stands at a place cannot follow the tokens in front of it: no source begins with
these tokens and then the token there.  If no token is there, no source begins with them and
then the character there, unless it is one that an operator doubles. -/
inductive Blocked (Owner : Type) (tokens : List Token) : List Char → Prop where
  | token {cs rest : List Char} {token : Token} (hfirst : IsLongest cs token rest)
    (hnone : ∀ source behind, IsSource Owner source → Unquoted source →
      ¬ Begins source (tokens ++ [token]) behind) : Blocked Owner tokens cs
  | character {c : Char} {cs : List Char} (hnone : ∀ token rest, ¬ IsLongest (c :: cs) token rest)
    (hdoubled : ∀ source behind, IsSource Owner source → Unquoted source →
      Begins source tokens (c :: behind) →
      (c = '&' ∨ c = '|' ∨ c = '=') ∧ behind.head? = some c ∧ cs.head? ≠ some c) :
    Blocked Owner tokens (c :: cs)

/-- An offset of a text is the first place where it cannot go on to be a source. -/
structure IsFirstFault (Owner : Type) (source : List Char) (k : Nat) : Prop where
  within : k ≤ source.length
  goesOn : ∃ more, IsSource Owner (source.take k ++ more)
  ended : k = source.length →
    ¬ IsSource Owner source ∧ ∃ more, more ≠ [] ∧ IsSource Owner (source ++ more)
  stopped : k < source.length →
    ∃ tokens, Begins (source.take k) tokens [] ∧ Blocked Owner tokens (source.drop k)

/-- The phrase of a source is read wherever the source is written. -/
theorem IsSource.exists_readPhrase {source : List Char} (h : IsSource Owner source)
    (offset : Nat) : ∃ p, readPhrase offset source = .ok p := by
  obtain ⟨lexemes, p, hcut, hp⟩ := h.exists_cut
  have hread : readPhrase 0 source = .ok p := readPhrase_eq_ok_iff.mpr ⟨lexemes, hcut, hp⟩
  refine ⟨p.shift offset, ?_⟩
  rw [← Nat.zero_add offset, readPhrase_shift, hread, Nat.zero_add]

/-- **Reading an expression fails at its first fault.** -/
theorem isFirstFault_of_readPhrase {source : List Char} (hquotes : Unquoted source)
    (hshort : ShortRuns source) {cause : SyntaxError.Cause} {place : Nat}
    (h : readPhrase 2 source = .error (cause, place)) :
    ∃ k, place = 2 + k ∧ IsFirstFault Owner source k := by
  have hnot : ¬ IsSource Owner source := by
    intro hsource
    obtain ⟨p, hp⟩ := hsource.exists_readPhrase 2
    rw [h] at hp
    cases hp
  obtain ⟨a, b, lexemes, r, rfl, hcut, hrun, hplace, hhalts⟩ := halts_of_readPhrase h
  have hin : a <:+: a ++ b := (List.prefix_append a b).isInfix
  have hquote : '"' ∉ a := fun hmem => (hquotes _ (List.mem_append_left _ hmem)).1 rfl
  have hsure := hcut.forall_isSure hin hquotes hshort
  obtain ⟨more, hmore, hsource⟩ : ∃ more, more ≠ [] ∧ IsSource Owner (a ++ more) :=
    exists_isSource_append hcut hrun hquote hsure
  refine ⟨a.length, hplace, ?_, ?_, ?_, ?_⟩
  · simp
  · rw [List.take_left]
    exact ⟨more, hsource⟩
  · intro hend
    obtain rfl : b = [] := by
      rw [List.length_append] at hend
      exact List.length_eq_zero_iff.mp (by omega)
    rw [List.append_nil] at hnot ⊢
    exact ⟨hnot, more, hmore, hsource⟩
  · intro hlt
    rw [List.take_left, List.drop_left]
    refine ⟨lexemes.map Lexeme.token, hcut.begins, ?_⟩
    cases hhalts with
    | ended => simp at hlt
    | token hfirst hstep =>
      refine .token hfirst ?_
      intro source behind hsource _
      exact not_begins_of_step hrun hstep hsource behind
    | @character c cs hc hnone =>
      refine .character hnone ?_
      intro source behind hsource _ hbegins
      have hquote : c ≠ '"' := (hquotes c (by simp)).1
      exact doubled_of_begins hc hquote hnone hsource hbegins

/-- **A syntax error points at the first place that cannot be continued.**  The source is not
blank, has neither quotes nor braces and no number that is too long.  Up to the place of the
error it goes on to some source.  What is found there no source goes on with, and if nothing
is found there the text itself goes on. -/
theorem parse_error_isFirstFault {source : List Char} {start : Pos} {e : SyntaxError}
    (hblank : isBlank source = false) (hquotes : Unquoted source) (hshort : ShortRuns source)
    (h : (parse (String.ofList (interpolation source)) start :
      Except ParseFailure (Node Owner)) = .error (.malformed e)) :
    ∃ k, e.pos = start.locate (interpolation source) (2 + k) ∧ IsFirstFault Owner source k := by
  have hcloses : Closes source := takeCode_plain hquotes []
  rw [parse_of_closes hcloses] at h
  cases hread : readPhrase 2 source with
  | error failure =>
    obtain ⟨cause, place⟩ := failure
    rw [expression, hblank, hread] at h
    cases h
    obtain ⟨k, rfl, hk⟩ : ∃ k, place = 2 + k ∧ IsFirstFault Owner source k :=
      isFirstFault_of_readPhrase hquotes hshort hread
    exact ⟨k, rfl, hk⟩
  | ok p =>
    -- what is read has its values, so that nothing is left that could fail
    obtain ⟨lexemes, hcut, hp⟩ := readPhrase_eq_ok_iff.mp hread
    obtain ⟨n, hn⟩ := hp.exists_node (start.locate (interpolation source))
      (ofString (start.locate (interpolation source)) (interpolation source).length)
      (hcut.forall_isSure (List.infix_refl source) hquotes hshort)
    rw [expression_of_readPhrase hblank hread, hn] at h
    cases h

theorem parse_error_isFirstFault_unclosed :
    isBlank "f(a[0] b".toList = false ∧ Unquoted "f(a[0] b".toList ∧
      ShortRuns "f(a[0] b".toList ∧
      (parse (String.ofList (interpolation "f(a[0] b".toList)) ⟨"", 1, 1⟩ :
        Except ParseFailure (Node Empty)) =
          .error (.malformed ⟨.unexpectedToken "b", ⟨"", 1, 10⟩⟩) ∧
      ∃ k, (⟨"", 1, 10⟩ : Pos) =
          Pos.locate ⟨"", 1, 1⟩ (interpolation "f(a[0] b".toList) (2 + k) ∧
        IsFirstFault Empty "f(a[0] b".toList k := by
  have hblank : isBlank "f(a[0] b".toList = false := by decide
  have hquotes : Unquoted "f(a[0] b".toList := by simp [Unquoted]
  have hshort : ShortRuns "f(a[0] b".toList :=
    shortRuns_of_length_le (by rw [Digits.digitLimit]; decide)
  have herror : (parse (String.ofList (interpolation "f(a[0] b".toList)) ⟨"", 1, 1⟩ :
      Except ParseFailure (Node Empty)) =
        .error (.malformed ⟨.unexpectedToken "b", ⟨"", 1, 10⟩⟩) := by with_unfolding_all rfl
  exact ⟨hblank, hquotes, hshort, herror,
    parse_error_isFirstFault hblank hquotes hshort herror⟩

/-- A source goes on with a character that begins no token where the error is: the first half
of an operator.  The position of the error is that of no other place. -/
theorem parse_error_loneEquals :
    isBlank "a =".toList = false ∧ Unquoted "a =".toList ∧ ShortRuns "a =".toList ∧
      ∃ e : SyntaxError,
        (parse (String.ofList (interpolation "a =".toList)) ⟨"", 1, 1⟩ :
          Except ParseFailure (Node Empty)) = .error (.malformed e) ∧
        ¬ ∃ k ≤ "a =".toList.length,
          e.pos = Pos.locate ⟨"", 1, 1⟩ (interpolation "a =".toList) (2 + k) ∧
          (∃ more, IsSource Empty ("a =".toList.take k ++ more)) ∧
          (k < "a =".toList.length → ∀ tokens, Begins ("a =".toList.take k) tokens [] →
            (∀ token rest, IsLongest ("a =".toList.drop k) token rest →
              ∀ source behind, IsSource Empty source → Unquoted source →
                ¬ Begins source (tokens ++ [token]) behind) ∧
            ∀ c cs, "a =".toList.drop k = c :: cs →
              (∀ token rest, ¬ IsLongest (c :: cs) token rest) →
              ∀ source behind, IsSource Empty source → Unquoted source →
                ¬ Begins source tokens (c :: behind)) ∧
          (k = "a =".toList.length → ¬ IsSource Empty "a =".toList ∧
            ∃ more, IsSource Empty ("a =".toList ++ more)) := by
  have hquotes : Unquoted "a =".toList := by simp [Unquoted]
  have hshort : ShortRuns "a =".toList :=
    shortRuns_of_length_le (by rw [Digits.digitLimit]; decide)
  refine ⟨by decide, hquotes, hshort, ⟨.unexpectedCharacter '=', ⟨"", 1, 5⟩⟩,
    by with_unfolding_all rfl, ?_⟩
  rintro ⟨k, hk, hpos, -, hstopped, -⟩
  -- the error is found at the lone sign
  have hplace : ∀ k ≤ 3, (⟨"", 1, 5⟩ : Pos) =
      Pos.locate ⟨"", 1, 1⟩ (interpolation "a =".toList) (2 + k) → k = 2 := by decide
  obtain rfl : k = 2 := hplace k hk hpos
  have hfirst : Begins ['a', ' '] [.name ['a']] [] :=
    .token (readToken_eq_some_iff.mp (by with_unfolding_all rfl)) (.space (by decide) (.done []))
  have hread : readToken .operator ['='] = none := rfl
  have hnone : ∀ token rest, ¬ IsLongest ['='] token rest := not_isLongest_of_readToken hread
  -- an equation goes on with it all the same
  have hsource : IsSource Empty "a == b".toList := ⟨_, by with_unfolding_all rfl⟩
  have hbegins : Begins "a == b".toList [.name ['a']] "== b".toList :=
    .token (readToken_eq_some_iff.mp (by with_unfolding_all rfl)) (.space (by decide) (.done _))
  have hequation : Unquoted "a == b".toList := by simp [Unquoted]
  exact (hstopped (by decide) _ hfirst).2 '=' [] rfl hnone _ _ hsource hequation hbegins

end Interpolation.Template
