/-
How tokens are spelled, and that the longest one is read.

* `spelled_of_readToken` — what is read at the front of a text is spelled as its kind of
  token has to be;
* `readToken_longest` — where there is a token, one at least as long is read;
* `readToken_eq_some_iff` — reading finds exactly the longest token there is.

Design notes: the patterns of the tokens are stated on their own, without the functions
that read them.  The first character decides which kind of token can stand at the front
of a text, so each kind is compared only with itself.  All of this is about reading where
an operator is due, since every token can be found there.
-/
import Interpolation.Number.Digits
import Interpolation.Template.Lexer
import Mathlib.Data.List.TakeWhile
import Mathlib.Tactic.Tauto

namespace Interpolation.Template

open Lexer

/-! ### The patterns -/

/-- Runs of digits: `[0-9]+`. -/
def IsDigits (cs : List Char) : Prop :=
  cs ≠ [] ∧ ∀ c ∈ cs, c.isDigit = true

/-- Numbers: `[0-9]+(\.[0-9]+)?`. -/
def IsNumber (cs : List Char) : Prop :=
  IsDigits cs ∨ ∃ whole fraction, IsDigits whole ∧ IsDigits fraction ∧
    cs = whole ++ '.' :: fraction

/-- What may stand behind a dot in a name: `[a-zA-Z0-9_\-]+|\*`. -/
def IsSegment (cs : List Char) : Prop :=
  cs = ['*'] ∨ cs ≠ [] ∧ ∀ c ∈ cs, continuesName c = true

/-- Segments with a dot before each. -/
def dotted (segments : List (List Char)) : List Char :=
  segments.flatMap ('.' :: ·)

/-- Names: `[a-zA-Z_][a-zA-Z0-9_\-]*(\.([a-zA-Z0-9_\-]+|\*))*`. -/
def IsName (cs : List Char) : Prop :=
  ∃ c first segments, startsName c = true ∧ (∀ x ∈ first, continuesName x = true) ∧
    (∀ s ∈ segments, IsSegment s) ∧ cs = c :: first ++ dotted segments

/-- What stands between the quotes of a string literal: `(\\.|[^"\\])*`, where the dot is
any character but a line feed. -/
inductive IsBody : List Char → Prop where
  | nil : IsBody []
  | escaped {c : Char} {cs : List Char} (hc : c ≠ '\n') (hcs : IsBody cs) :
    IsBody ('\\' :: c :: cs)
  | plain {c : Char} {cs : List Char} (hquote : c ≠ '"') (hslash : c ≠ '\\')
    (hcs : IsBody cs) : IsBody (c :: cs)

/-- The words that are not names. -/
def IsKeyword (cs : List Char) : Prop :=
  cs = ['t', 'r', 'u', 'e'] ∨ cs = ['f', 'a', 'l', 's', 'e']

/-- Whether a token is written as its pattern says; the tokens that are not listed have
one spelling each. -/
def Token.Spelled : Token → Prop
  | .number digits => IsNumber digits
  | .quoted body => IsBody body
  | .name text => IsName text ∧ ¬ IsKeyword text
  | _ => True

/-- The token is at the front of a text, with the given rest behind it, and no token
there is longer. -/
structure IsLongest (cs : List Char) (token : Token) (rest : List Char) : Prop where
  spelled : token.Spelled
  text_append : token.text ++ rest = cs
  longest : ∀ other : Token, other.Spelled → other.text <+: cs →
    other.text.length ≤ token.text.length

/-! ### Digits of whole numbers -/

theorem toNat_ofNat (n : Nat) : Digits.toNat (Digits.ofNat n) = n :=
  Nat.ofDigitChars_ten_toDigits

theorem isDigits_ofNat (n : Nat) : IsDigits (Digits.ofNat n) :=
  ⟨Nat.toDigits_ne_nil, fun _ hc => Nat.isDigit_of_mem_toDigits (by decide) (by decide) hc⟩

/-! ### Characters by their codes -/

theorem isAlpha_iff {c : Char} :
    c.isAlpha = true ↔ (65 ≤ c.toNat ∧ c.toNat ≤ 90) ∨ (97 ≤ c.toNat ∧ c.toNat ≤ 122) := by
  show (decide (65 ≤ c.val ∧ c.val ≤ 90) || (97 ≤ c.val && c.val ≤ 122)) = true ↔ _
  simp only [Bool.or_eq_true, Bool.and_eq_true, decide_eq_true_eq, UInt32.le_iff_toNat_le]
  exact Iff.rfl

theorem startsName_iff {c : Char} : startsName c = true ↔
    (65 ≤ c.toNat ∧ c.toNat ≤ 90) ∨ (97 ≤ c.toNat ∧ c.toNat ≤ 122) ∨ c.toNat = 95 := by
  rw [startsName, Bool.or_eq_true, isAlpha_iff, decide_eq_true_eq, ← Char.toNat_inj, or_assoc]
  exact Iff.rfl

theorem continuesName_iff {c : Char} :
    continuesName c = true ↔ startsName c = true ∨ c.isDigit = true ∨ c = '-' := by
  simp only [continuesName, startsName, Char.isAlphanum, Bool.or_eq_true, decide_eq_true_eq]
  tauto

theorem startsName_of_isDigit {c : Char} (h : c.isDigit = true) : startsName c = false := by
  have hcode : 48 ≤ c.toNat ∧ c.toNat ≤ 57 := Char.isDigit_iff_toNat.mp h
  rw [Bool.eq_false_iff, ne_eq, startsName_iff]
  omega

/-! ### First characters -/

theorem isName_keyword {cs : List Char} (h : IsKeyword cs) : IsName cs := by
  rcases h with rfl | rfl
  · exact ⟨'t', ['r', 'u', 'e'], [], by decide, List.all_eq_true.mp rfl, by simp, rfl⟩
  · exact ⟨'f', ['a', 'l', 's', 'e'], [], by decide, List.all_eq_true.mp rfl, by simp, rfl⟩

theorem Token.spelled_ofWord {word : List Char} (h : IsName word) :
    (Token.ofWord word).Spelled := by
  unfold Token.ofWord
  split
  · trivial
  · next htrue =>
    split
    · trivial
    · next hfalse => exact ⟨h, not_or.mpr ⟨htrue, hfalse⟩⟩

theorem Token.ofWord_name {word : List Char} (h : ¬ IsKeyword word) :
    Token.ofWord word = .name word := by
  obtain ⟨htrue, hfalse⟩ := not_or.mp h
  rw [Token.ofWord, if_neg htrue, if_neg hfalse]

theorem spelled_of_mem_marksFor {due : Due} {token : Token} (h : token ∈ marksFor due) :
    token.Spelled := by
  have hall : ∀ t ∈ Token.operator .notEqual :: marks, t.Spelled := by
    simp [marks, Token.Spelled]
  cases due with
  | operand => exact hall token (List.mem_cons_of_mem _ h)
  | operator => exact hall token h

/-- The four kinds of tokens. -/
theorem Token.Spelled.cases {token : Token} (h : token.Spelled) :
    (∃ body, IsBody body ∧ token = .quoted body) ∨
      (∃ digits, IsNumber digits ∧ token = .number digits) ∨
        (∃ word, IsName word ∧ token = .ofWord word) ∨ token ∈ marksFor .operator := by
  cases token with
  | quoted body => exact .inl ⟨body, h, rfl⟩
  | number digits => exact .inr (.inl ⟨digits, h, rfl⟩)
  | name text => exact .inr (.inr (.inl ⟨text, h.1, (Token.ofWord_name h.2).symm⟩))
  | bool b =>
    cases b with
    | true => exact .inr (.inr (.inl ⟨_, isName_keyword (.inl rfl), rfl⟩))
    | false => exact .inr (.inr (.inl ⟨_, isName_keyword (.inr rfl), rfl⟩))
  | operator op => cases op <;> exact .inr (.inr (.inr (by decide)))
  | _ => exact .inr (.inr (.inr (by decide)))

/-- The first character of a number is a digit. -/
theorem IsNumber.head {digits : List Char} (h : IsNumber digits) :
    ∃ c cs, digits = c :: cs ∧ c.isDigit = true := by
  have hdigits : ∀ {ds : List Char}, IsDigits ds → ∃ c cs, ds = c :: cs ∧ c.isDigit = true := by
    rintro ds ⟨hne, hds⟩
    obtain ⟨c, cs, rfl⟩ := List.exists_cons_of_ne_nil hne
    exact ⟨c, cs, rfl, hds c List.mem_cons_self⟩
  rcases h with h | ⟨whole, fraction, h, -, rfl⟩
  · exact hdigits h
  · obtain ⟨c, cs, rfl, hc⟩ := hdigits h
    exact ⟨c, cs ++ '.' :: fraction, rfl, hc⟩

/-- What the first character of a token says of it. -/
inductive HeadOf (c : Char) : Token → Prop where
  | quoted {body : List Char} (hc : c = '"') (h : IsBody body) : HeadOf c (.quoted body)
  | number {digits : List Char} (hquote : c ≠ '"') (hc : c.isDigit = true)
    (h : IsNumber digits) : HeadOf c (.number digits)
  | word {word : List Char} (hquote : c ≠ '"') (hdigit : c.isDigit = false)
    (hc : startsName c = true) (h : IsName word) : HeadOf c (.ofWord word)
  | mark {token : Token} (hquote : c ≠ '"') (hdigit : c.isDigit = false)
    (hc : startsName c = false) (h : token ∈ marksFor .operator) : HeadOf c token

/-- The head of a token tells its kind. -/
theorem Token.Spelled.head {token : Token} (h : token.Spelled) :
    ∃ c cs, token.text = c :: cs ∧ HeadOf c token := by
  rcases h.cases with ⟨body, hbody, rfl⟩ | ⟨digits, hdigits, rfl⟩ | ⟨word, hword, rfl⟩ | hmark
  · exact ⟨'"', body ++ ['"'], rfl, .quoted rfl hbody⟩
  · obtain ⟨c, cs, hcs, hc⟩ := hdigits.head
    refine ⟨c, cs, hcs, .number ?_ hc hdigits⟩
    rintro rfl
    cases hc
  · have hname := hword
    obtain ⟨c, first, segments, hc, -, -, rfl⟩ := hword
    refine ⟨c, _, Token.text_ofWord _, .word ?_ ?_ hc hname⟩
    · rintro rfl
      cases hc
    · by_contra hdigit
      rw [startsName_of_isDigit (by simpa using hdigit)] at hc
      cases hc
  · obtain ⟨c, cs, hcs⟩ := List.exists_cons_of_ne_nil (text_ne_nil_of_mem_marksFor hmark)
    have hheads : ∀ t ∈ marksFor .operator,
        t.text.head?.any (fun c => c = '"' || c.isDigit || startsName c) = false := by decide
    have hc := hheads token hmark
    rw [hcs, List.head?_cons, Option.any_some, Bool.or_eq_false_iff, Bool.or_eq_false_iff,
      decide_eq_false_iff_not] at hc
    obtain ⟨⟨hquote, hdigit⟩, hname⟩ := hc
    exact ⟨c, cs, hcs, .mark hquote hdigit hname hmark⟩

/-! ### What is read is spelled -/

theorem readFraction_cases (cs : List Char) :
    (readFraction cs).1 = [] ∨ ∃ fraction, IsDigits fraction ∧
      (readFraction cs).1 = '.' :: fraction := by
  unfold readFraction
  split
  · next d cs =>
    split
    · next hd =>
      refine .inr ⟨_, ⟨List.cons_ne_nil _ _, ?_⟩, rfl⟩
      exact List.forall_mem_cons.mpr ⟨hd, fun c hc => List.mem_takeWhile_imp hc⟩
    · exact .inl rfl
  · exact .inl rfl

theorem isNumber_read {c : Char} (hc : c.isDigit = true) (cs : List Char) :
    IsNumber (c :: cs.takeWhile Char.isDigit ++
      (readFraction (cs.dropWhile Char.isDigit)).1) := by
  have hwhole : IsDigits (c :: cs.takeWhile Char.isDigit) :=
    ⟨List.cons_ne_nil _ _,
      List.forall_mem_cons.mpr ⟨hc, fun d hd => List.mem_takeWhile_imp hd⟩⟩
  rcases readFraction_cases (cs.dropWhile Char.isDigit) with h | ⟨fraction, hfraction, h⟩
  · rw [h, List.append_nil]
    exact .inl hwhole
  · rw [h]
    exact .inr ⟨_, fraction, hwhole, hfraction, rfl⟩

theorem readSegments_dotted (cs : List Char) :
    ∃ segments, (∀ s ∈ segments, IsSegment s) ∧ (readSegments cs).1 = dotted segments := by
  fun_induction readSegments cs with
  | case1 cs more ih =>
    obtain ⟨segments, hsegments, heq⟩ := ih
    exact ⟨['*'] :: segments, List.forall_mem_cons.mpr ⟨.inl rfl, hsegments⟩,
      congrArg ('.' :: '*' :: ·) heq⟩
  | case2 c cs _ hc more ih =>
    obtain ⟨segments, hsegments, heq⟩ := ih
    refine ⟨(c :: cs.takeWhile continuesName) :: segments,
      List.forall_mem_cons.mpr ⟨.inr ⟨List.cons_ne_nil _ _, ?_⟩, hsegments⟩, ?_⟩
    · exact List.forall_mem_cons.mpr ⟨hc, fun d hd => List.mem_takeWhile_imp hd⟩
    · simp [dotted, more, heq]
  | case3 => exact ⟨[], by simp, rfl⟩
  | case4 => exact ⟨[], by simp, rfl⟩

theorem isName_read {c : Char} (hc : startsName c = true) (cs : List Char) :
    IsName (c :: cs.takeWhile continuesName ++
      (readSegments (cs.dropWhile continuesName)).1) := by
  obtain ⟨segments, hsegments, heq⟩ := readSegments_dotted (cs.dropWhile continuesName)
  exact ⟨c, _, segments, hc, fun d hd => List.mem_takeWhile_imp hd, hsegments, by rw [heq]⟩

theorem isBody_of_readQuoted {cs body rest : List Char}
    (h : readQuoted cs = some (body, rest)) : IsBody body := by
  fun_induction readQuoted cs generalizing body rest with
  | case1 => cases h
  | case2 cs =>
    cases h
    exact .nil
  | case3 => cases h
  | case4 c cs hc ih =>
    obtain ⟨r, hr, heq⟩ := Option.map_eq_some_iff.mp h
    cases heq
    exact .escaped hc (ih hr)
  | case5 => cases h
  | case6 c cs hquote hslash hend ih =>
    obtain ⟨r, hr, heq⟩ := Option.map_eq_some_iff.mp h
    cases heq
    refine .plain (fun h => hquote h) ?_ (ih hr)
    rintro rfl
    cases cs with
    | nil => exact hend rfl rfl
    | cons d cs => exact hslash d cs rfl rfl

theorem spelled_of_readToken {due : Due} {cs : List Char} {token : Token} {rest : List Char}
    (h : readToken due cs = some (token, rest)) : token.Spelled := by
  cases cs with
  | nil => cases h
  | cons c cs =>
    rw [readToken] at h
    split at h
    · obtain ⟨q, hq, heq⟩ := Option.map_eq_some_iff.mp h
      cases heq
      exact isBody_of_readQuoted hq
    · split at h
      · next hdigit =>
        cases h
        exact isNumber_read hdigit cs
      · split at h
        · next hname =>
          cases h
          exact Token.spelled_ofWord (isName_read hname cs)
        · exact spelled_of_mem_marksFor (readMark_eq_some h).1

/-! ### No token is longer -/

theorem readQuoted_body {body : List Char} (h : IsBody body) (rest : List Char) :
    readQuoted (body ++ '"' :: rest) = some (body, rest) := by
  induction h with
  | nil => rfl
  | escaped hc hcs ih => simp [readQuoted, hc, ih]
  | plain hquote hslash hcs ih =>
    rw [List.cons_append, readQuoted, ih]
    · rfl
    · exact fun h => hquote h
    · intro d ds h
      exact absurd h hslash
    · intro h
      exact absurd h hslash

theorem length_number_le {c : Char} {cs digits : List Char} (h : IsNumber digits)
    (hat : digits <+: c :: cs) :
    digits.length ≤ (c :: cs.takeWhile Char.isDigit ++
      (readFraction (cs.dropWhile Char.isDigit)).1).length := by
  obtain ⟨rest, hrest⟩ := hat
  rcases h with ⟨hne, hdigits⟩ | ⟨whole, fraction, ⟨hne, hwhole⟩, ⟨hne', hfraction⟩, rfl⟩
  · obtain ⟨d, ds, rfl⟩ := List.exists_cons_of_ne_nil hne
    rw [List.cons_append] at hrest
    obtain ⟨rfl, rfl⟩ := List.cons.inj hrest
    rw [List.takeWhile_append_of_pos (List.forall_mem_cons.mp hdigits).2]
    simp only [List.length_cons, List.length_append]
    omega
  · obtain ⟨d, ds, rfl⟩ := List.exists_cons_of_ne_nil hne
    obtain ⟨f, fs, rfl⟩ := List.exists_cons_of_ne_nil hne'
    simp only [List.cons_append, List.append_assoc] at hrest
    obtain ⟨rfl, rfl⟩ := List.cons.inj hrest
    have hds := (List.forall_mem_cons.mp hwhole).2
    obtain ⟨hf, hfs⟩ := List.forall_mem_cons.mp hfraction
    -- the point ends the whole part, so the fraction is read from its first digit on
    rw [List.takeWhile_append_of_pos hds, List.dropWhile_append_of_pos hds,
      List.takeWhile_cons_of_neg (by decide), List.dropWhile_cons_of_neg (by decide),
      readFraction, if_pos hf, List.takeWhile_append_of_pos hfs]
    simp only [List.length_cons, List.length_append, List.length_nil]
    omega

/-- A run of characters of a name is read to its end, and on from there if a dot
follows. -/
theorem length_run_le {run : List Char} (hrun : ∀ c ∈ run, continuesName c = true)
    {segments : List (List Char)} {rest : List Char}
    (h : (dotted segments).length ≤ (readSegments (dotted segments ++ rest)).1.length) :
    run.length + (dotted segments).length ≤
      ((run ++ (dotted segments ++ rest)).takeWhile continuesName).length +
        (readSegments ((run ++ (dotted segments ++ rest)).dropWhile continuesName)).1.length := by
  rw [List.takeWhile_append_of_pos hrun, List.dropWhile_append_of_pos hrun, List.length_append]
  cases segments with
  | nil =>
    simp only [dotted, List.flatMap_nil, List.length_nil]
    omega
  | cons s more =>
    have hdot : dotted (s :: more) ++ rest = '.' :: (s ++ dotted more ++ rest) := rfl
    have hdrop : (dotted (s :: more) ++ rest).dropWhile continuesName =
        dotted (s :: more) ++ rest := by
      rw [hdot]
      exact List.dropWhile_cons_of_neg (by decide)
    rw [hdrop]
    omega

theorem length_dotted_le {segments : List (List Char)} (h : ∀ s ∈ segments, IsSegment s)
    (rest : List Char) :
    (dotted segments).length ≤ (readSegments (dotted segments ++ rest)).1.length := by
  induction segments with
  | nil => exact Nat.zero_le _
  | cons s more ih =>
    obtain ⟨hs, hmore⟩ := List.forall_mem_cons.mp h
    have ih := ih hmore
    have hdot : dotted (s :: more) = '.' :: s ++ dotted more := rfl
    rw [hdot]
    rcases hs with rfl | ⟨hne, hs⟩
    · simp only [List.cons_append, List.nil_append, readSegments, if_pos, List.length_cons]
      omega
    · obtain ⟨c, cs, rfl⟩ := List.exists_cons_of_ne_nil hne
      obtain ⟨hc, hcs⟩ := List.forall_mem_cons.mp hs
      have hstar : c ≠ '*' := by
        rintro rfl
        cases hc
      have hrun := length_run_le hcs ih
      simp only [List.cons_append, List.append_assoc]
      rw [readSegments, if_neg hstar, if_pos hc]
      simp only [List.length_cons, List.length_append]
      omega

theorem length_name_le {c : Char} {cs word : List Char} (h : IsName word)
    (hat : word <+: c :: cs) :
    word.length ≤ (c :: cs.takeWhile continuesName ++
      (readSegments (cs.dropWhile continuesName)).1).length := by
  obtain ⟨rest, hrest⟩ := hat
  obtain ⟨d, first, segments, -, hfirst, hsegments, rfl⟩ := h
  simp only [List.cons_append, List.append_assoc] at hrest
  obtain ⟨rfl, rfl⟩ := List.cons.inj hrest
  have hrun := length_run_le hfirst (length_dotted_le hsegments rest)
  simp only [List.length_cons, List.length_append]
  omega

theorem behind?_isSome {ms cs : List Char} (h : ms <+: cs) : (behind? ms cs).isSome := by
  obtain ⟨rest, rfl⟩ := h
  induction ms with
  | nil => rfl
  | cons m ms ih => simpa [behind?] using ih

/-- Of two tokens with a fixed spelling the one that comes first in the list does not
begin the other. -/
theorem pairwise_marksFor : (marksFor .operator).Pairwise fun a b =>
    a.text <+: b.text → b.text.length ≤ a.text.length := by
  decide

theorem readMark_longest {token : Token} (h : token ∈ marksFor .operator) (rest : List Char) :
    ∃ read left, readMark .operator (token.text ++ rest) = some (read, left) ∧
      token.text.length ≤ read.text.length := by
  have hat : token.text <+: token.text ++ rest := List.prefix_append _ _
  obtain ⟨behind, hbehind⟩ := Option.isSome_iff_exists.mp (behind?_isSome hat)
  have hsome : (readMark .operator (token.text ++ rest)).isSome := by
    rw [readMark, List.findSome?_isSome_iff]
    exact ⟨token, h, by rw [hbehind]; rfl⟩
  obtain ⟨⟨read, left⟩, hread⟩ := Option.isSome_iff_exists.mp hsome
  refine ⟨read, left, hread, ?_⟩
  have htext : read.text <+: token.text ++ rest := ⟨left, (readMark_eq_some hread).2⟩
  obtain ⟨before, mark, after, hmarks, hmark, hbefore⟩ := List.findSome?_eq_some_iff.mp hread
  obtain ⟨_, _, heq⟩ := Option.map_eq_some_iff.mp hmark
  cases heq
  -- nothing before the mark that is found matches, and what comes after it is not longer
  have hpairs := (List.pairwise_append.mp (hmarks ▸ pairwise_marksFor)).2.1
  rw [hmarks, List.mem_append, List.mem_cons] at h
  rcases h with h | rfl | h
  · have hnone := hbefore token h
    rw [hbehind] at hnone
    cases hnone
  · exact Nat.le_refl _
  · rcases Nat.le_total token.text.length read.text.length with hle | hle
    · exact hle
    · exact List.rel_of_pairwise_cons hpairs h (List.prefix_of_prefix_length_le htext hat hle)

/-- **Where there is a token, one at least as long is read.** -/
theorem readToken_longest {token : Token} (h : token.Spelled) (rest : List Char) :
    ∃ read left, readToken .operator (token.text ++ rest) = some (read, left) ∧
      token.text.length ≤ read.text.length := by
  obtain ⟨c, more, hmore, hhead⟩ := h.head
  have hat : token.text <+: c :: (more ++ rest) := ⟨rest, by rw [hmore, List.cons_append]⟩
  rw [hmore, List.cons_append, readToken]
  cases hhead with
  | quoted hc hbody =>
    have hbodyText : _ ++ ['"'] = more := (List.cons.inj hmore).2
    rw [if_pos hc, ← hbodyText, List.append_assoc, List.singleton_append, readQuoted_body hbody]
    exact ⟨_, _, rfl, Nat.le_refl _⟩
  | number hquote hdigit hnumber =>
    rw [if_neg hquote, if_pos hdigit]
    exact ⟨_, _, rfl, hmore ▸ length_number_le hnumber hat⟩
  | word hquote hdigit hname hword =>
    rw [if_neg hquote, if_neg (by simp [hdigit]), if_pos hname]
    rw [Token.text_ofWord] at hmore hat
    refine ⟨_, _, rfl, ?_⟩
    rw [Token.text_ofWord]
    exact hmore ▸ length_name_le hword hat
  | mark hquote hdigit hname hmark =>
    rw [if_neg hquote, if_neg (by simp [hdigit]), if_neg (by simp [hname]), ← List.cons_append,
      ← hmore]
    exact readMark_longest hmark rest

/-! ### The longest token is read -/

/-- Tokens that are written alike are the same. -/
theorem Token.Spelled.eq_of_text {a b : Token} (ha : a.Spelled) (hb : b.Spelled)
    (h : a.text = b.text) : a = b := by
  obtain ⟨c, more, hmore, hhead⟩ := ha.head
  obtain ⟨c', more', hmore', hhead'⟩ := hb.head
  obtain ⟨rfl, rfl⟩ := List.cons.inj (hmore.symm.trans (h.trans hmore'))
  cases hhead with
  | quoted hc hbody =>
    cases hhead' with
    | quoted => simpa [Token.text] using h
    | _ => contradiction
  | number hquote hdigit hnumber =>
    cases hhead' with
    | number => exact congrArg Token.number h
    | _ => simp_all
  | word hquote hdigit hname hword =>
    cases hhead' with
    | word =>
      rw [Token.text_ofWord, Token.text_ofWord] at h
      rw [h]
    | _ => simp_all
  | mark hquote hdigit hname hmark =>
    have hinj : ∀ a ∈ marksFor .operator, ∀ b ∈ marksFor .operator, a.text = b.text → a = b := by
      decide
    cases hhead' with
    | mark _ _ _ hmark' => exact hinj a hmark b hmark' h
    | _ => simp_all

/-- **Reading finds exactly the longest token there is.** -/
theorem readToken_eq_some_iff {cs : List Char} {token : Token} {rest : List Char} :
    readToken .operator cs = some (token, rest) ↔ IsLongest cs token rest := by
  constructor
  · intro h
    refine ⟨spelled_of_readToken h, readToken_text h, ?_⟩
    rintro other hother ⟨left, rfl⟩
    obtain ⟨read, _, hread, hle⟩ := readToken_longest hother left
    cases h.symm.trans hread
    exact hle
  · rintro ⟨hspelled, rfl, hlongest⟩
    obtain ⟨read, left, hread, hle⟩ := readToken_longest hspelled rest
    have htext := readToken_text hread
    have hlen : read.text.length = token.text.length :=
      Nat.le_antisymm (hlongest read (spelled_of_readToken hread) ⟨left, htext⟩) hle
    obtain ⟨heq, rfl⟩ := List.append_inj htext hlen
    rw [(spelled_of_readToken hread).eq_of_text hspelled heq] at hread
    exact hread

end Interpolation.Template
