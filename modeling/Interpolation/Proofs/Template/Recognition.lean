/-
Expressions are recognized: the reader accepts the grammar, and nothing else.

* `holds_of_step`, `holds_of_run` — what the reader has put together so far is derived from
  the tokens it has read;
* `run_result?_iff` — a phrase is read off tokens exactly when it is derived from them;
* `Derivation.eq_of_yield` — tokens are derived in one way at most;
* `readPhrase_recognizes` — the same for the text of an expression.

Design notes: each construct on the stack is known with the derivations of its parts and
the tokens they are made of (`Begun`), and stands where it is bound tightly enough
(`Stacked`).  An operator or a closing token completes constructs from the top of the stack,
so what is said of the stack and the phrase on top of it (`Topped`) is kept one construct
at a time.
-/
import Interpolation.Proofs.Template.Lexing
import Interpolation.Proofs.Template.Reading
import Interpolation.Template.Node.OfText

namespace Interpolation.Template

open Reader

/-! ### Derivations -/

/-- A rule derives a phrase from tokens. -/
def Derives (r : Rule) (p : Phrase) (lexemes : List Lexeme) : Prop :=
  ∃ d : Derivation r, d.phrase = p ∧ d.yield = lexemes

/-- What a rule derives, every looser rule derives. -/
theorem Derives.loosen {r : Rule} {p : Phrase} {lexemes : List Lexeme}
    (h : Derives r p lexemes) (r' : Rule) (hle : r'.level ≤ r.level) : Derives r' p lexemes := by
  induction hn : r.level - r'.level generalizing r' with
  | zero =>
    obtain rfl : r' = r := Rule.level_injective (by omega)
    exact h
  | succ n ih =>
    have hr' : r' ≠ .atom := by
      rintro rfl
      have hr := r.level_le
      have hlevel : r.level - 8 = n + 1 := hn
      omega
    have hlevel := Rule.level_tighter hr'
    obtain ⟨d, hphrase, hyield⟩ := ih r'.tighter (by omega) (by omega)
    exact ⟨.tighter hr' d, hphrase, hyield⟩

/-- A name alone is derived from its token alone. -/
theorem Derivation.yield_of_name {r : Rule} {offset : Nat} {text : List Char} :
    (d : Derivation r) → d.phrase = .name offset text → d.yield = [⟨.name text, offset⟩]
  | .tighter _ d, h => d.yield_of_name h
  | .name .., h => by
    cases h
    rfl
  | .conditional .., h | .binary .., h | .unary .., h | .index .., h | .number .., h
  | .bool .., h | .quoted .., h | .callEmpty .., h | .call .., h | .group .., h => by
    cases h

/-! ### What the reader holds -/

/-- How tightly a construct is bound once it is complete. -/
def Pending.level : Pending → Nat
  | .unary .. => 6
  | .binary op _ => op.level
  | .yes .. | .no .. => 0
  | .group .. | .call .. => 8
  | .index .. => 7

/-- Arguments that have been read, with a comma behind each. -/
def Listed (arguments : List Phrase) (lexemes : List Lexeme) : Prop :=
  (arguments = [] ∧ lexemes = []) ∨
    ∃ (a : Arguments) (comma : Nat), a.phrases = arguments ∧ a.yield ++ [⟨.comma, comma⟩] = lexemes

theorem Listed.append {arguments : List Phrase} {p : Phrase} {as ms : List Lexeme}
    (h : Listed arguments as) (hp : Derives .expr p ms) :
    ∃ a : Arguments, a.phrases = arguments ++ [p] ∧ a.yield = as ++ ms := by
  obtain ⟨d, rfl, rfl⟩ := hp
  rcases h with ⟨rfl, rfl⟩ | ⟨a, comma, rfl, rfl⟩
  · exact ⟨.one d, rfl, rfl⟩
  · exact ⟨.more a comma d, rfl, by simp [Arguments.yield]⟩

/-- A construct has been begun with these tokens. -/
inductive Begun : Pending → List Lexeme → Prop where
  | unary (offset : Nat) (op : UnaryOp) :
    Begun (.unary offset op) [⟨Phrase.unaryToken op, offset⟩]
  | binary {op : BinaryOp} {l : Phrase} {ls : List Lexeme} (hl : Derives op.leftRule l ls)
    (offset : Nat) : Begun (.binary op l) (ls ++ [⟨.operator op, offset⟩])
  | yes {c : Phrase} {cs : List Lexeme} (hc : Derives .or c cs) (question : Nat) :
    Begun (.yes c) (cs ++ [⟨.question, question⟩])
  | no {c y : Phrase} {cs ys : List Lexeme} (hc : Derives .or c cs) (question : Nat)
    (hy : Derives .expr y ys) (colon : Nat) :
    Begun (.no c y) (cs ++ ⟨.question, question⟩ :: (ys ++ [⟨.colon, colon⟩]))
  | group (openParen : Nat) : Begun (.group openParen) [⟨.openParen, openParen⟩]
  | index {t : Phrase} {ts : List Lexeme} (ht : Derives .indexed t ts) (openBracket : Nat) :
    Begun (.index t) (ts ++ [⟨.openBracket, openBracket⟩])
  | call (offset : Nat) (function : List Char) (openParen : Nat) {arguments : List Phrase}
    {as : List Lexeme} (harguments : Listed arguments as) :
    Begun (.call offset function arguments)
      (⟨.name function, offset⟩ :: ⟨.openParen, openParen⟩ :: as)

/-- The constructs on a stack have been begun with these tokens, each where it may stand. -/
inductive Stacked : List Pending → List Lexeme → Prop where
  | nil : Stacked [] []
  | cons {pending : Pending} {stack : List Pending} {ls ms : List Lexeme}
    (hstack : Stacked stack ls) (hdemand : demand stack ≤ pending.level)
    (hbegun : Begun pending ms) : Stacked (pending :: stack) (ls ++ ms)

/-- Tokens are those of a stack and those of a phrase on top of it. -/
def Topped (stack : List Pending) (r : Rule) (p : Phrase) (lexemes : List Lexeme) : Prop :=
  ∃ ls ms, lexemes = ls ++ ms ∧ Stacked stack ls ∧ Derives r p ms

/-- What the reader has put together is derived from the tokens it has read. -/
def Holds : Reader → List Lexeme → Prop
  | .before stack, lexemes => Stacked stack lexemes
  | .behind stack p, lexemes => Topped stack .indexed p lexemes

/-! ### Completing constructs -/

/-- The topmost operator takes a phrase that is bound tightly enough. -/
theorem Topped.unary {offset : Nat} {op : UnaryOp} {stack : List Pending} {r : Rule} {p : Phrase}
    {lexemes : List Lexeme} (h : Topped (.unary offset op :: stack) r p lexemes)
    (hr : 6 ≤ r.level) : Topped stack .unary (.unary offset op p) lexemes := by
  obtain ⟨ls, ms, rfl, hstack, hp⟩ := h
  cases hstack with
  | @cons _ _ ls bs hstack _ hbegun =>
    cases hbegun
    obtain ⟨d, rfl, rfl⟩ := hp.loosen .unary hr
    exact ⟨ls, _, by rw [List.append_assoc]; rfl, hstack, .unary op offset d, rfl, rfl⟩

theorem Topped.binary {op : BinaryOp} {l : Phrase} {stack : List Pending} {r : Rule} {p : Phrase}
    {lexemes : List Lexeme} (h : Topped (.binary op l :: stack) r p lexemes)
    (hr : op.level + 1 ≤ r.level) :
    Topped stack op.rule (.binary op l p) lexemes ∧ demand stack ≤ op.level := by
  obtain ⟨ls, ms, rfl, hstack, hp⟩ := h
  cases hstack with
  | @cons _ _ ls bs hstack hdemand hbegun =>
    cases hbegun with
    | binary hl offset =>
      obtain ⟨left, rfl, rfl⟩ := hl
      obtain ⟨right, rfl, rfl⟩ := hp.loosen op.rule.tighter (by
        rwa [op.level_tighter_rule])
      refine ⟨⟨ls, _, ?_, hstack, .binary op rfl left offset right, rfl, rfl⟩, hdemand⟩
      simp [Derivation.yield]

theorem Topped.no {c y : Phrase} {stack : List Pending} {r : Rule} {p : Phrase}
    {lexemes : List Lexeme} (h : Topped (.no c y :: stack) r p lexemes) :
    Topped stack .expr (.conditional c y p) lexemes ∧ demand stack = 0 := by
  obtain ⟨ls, ms, rfl, hstack, hp⟩ := h
  cases hstack with
  | @cons _ _ ls bs hstack hdemand hbegun =>
    cases hbegun with
    | no hc question hy colon =>
      obtain ⟨condition, rfl, rfl⟩ := hc
      obtain ⟨yes, rfl, rfl⟩ := hy
      obtain ⟨no, rfl, rfl⟩ := hp.loosen .expr (Nat.zero_le _)
      refine ⟨⟨ls, _, ?_, hstack, .conditional condition question yes colon no, rfl, rfl⟩,
        Nat.le_zero.mp hdemand⟩
      simp [Derivation.yield]

/-- Settling completes operators until a rule derives what is on top. -/
theorem Topped.settle {stack : List Pending} {r : Rule} {p : Phrase} {lexemes : List Lexeme}
    (h : Topped stack r p lexemes) (level : Nat) (r' : Rule) (hdemand : demand stack ≤ r.level)
    (hr : r'.level ≤ r.level) (hlevel : r'.level ≤ max level 1) (hr' : r'.level ≤ 6) :
    Topped (settle level stack p).1 r' (settle level stack p).2 lexemes ∧
      demand (settle level stack p).1 ≤ level := by
  induction stack generalizing r p with
  | nil =>
    obtain ⟨ls, ms, hlexemes, hstack, hp⟩ := h
    exact ⟨⟨ls, ms, hlexemes, hstack, hp.loosen r' hr⟩, Nat.zero_le _⟩
  | cons waiting stack ih =>
    cases waiting with
    | unary offset op =>
      exact ih (h.unary hdemand) (demand_le stack) hr'
    | binary op l =>
      rw [Reader.settle]
      split
      · next hop =>
        obtain ⟨htopped, hstack⟩ := h.binary hdemand
        have hpos := op.level_pos
        exact ih htopped (by rwa [op.level_rule]) (by rw [op.level_rule]; omega)
      · next hop =>
        obtain ⟨ls, ms, hlexemes, hstack, hp⟩ := h
        exact ⟨⟨ls, ms, hlexemes, hstack, hp.loosen r' hr⟩, by simp only [demand]; omega⟩
    | _ =>
      obtain ⟨ls, ms, hlexemes, hstack, hp⟩ := h
      exact ⟨⟨ls, ms, hlexemes, hstack, hp.loosen r' hr⟩, Nat.zero_le _⟩

/-- Completing leaves an expression on top. -/
theorem Topped.complete {stack : List Pending} {r : Rule} {p : Phrase} {lexemes : List Lexeme}
    (h : Topped stack r p lexemes) (hdemand : demand stack ≤ r.level) :
    Topped (complete stack p).1 .expr (complete stack p).2 lexemes := by
  induction stack generalizing r p with
  | nil =>
    obtain ⟨ls, ms, hlexemes, hstack, hp⟩ := h
    exact ⟨ls, ms, hlexemes, hstack, hp.loosen .expr (Nat.zero_le _)⟩
  | cons waiting stack ih =>
    cases waiting with
    | unary offset op => exact ih (h.unary hdemand) (demand_le stack)
    | binary op l =>
      obtain ⟨htopped, hstack⟩ := h.binary hdemand
      exact ih htopped (by rwa [op.level_rule])
    | no c y =>
      obtain ⟨htopped, hstack⟩ := h.no
      exact ih htopped (Nat.le_of_eq hstack)
    | _ =>
      obtain ⟨ls, ms, hlexemes, hstack, hp⟩ := h
      exact ⟨ls, ms, hlexemes, hstack, hp.loosen .expr (Nat.zero_le _)⟩

/-! ### Steps of the reader -/

/-- Behind a phrase a construct is begun that the phrase is a part of. -/
theorem Topped.begin {pending : Pending} {stack : List Pending} {r : Rule} {p : Phrase}
    {lexemes : List Lexeme} {lexeme : Lexeme} (h : Topped stack r p lexemes)
    (hdemand : demand stack ≤ pending.level)
    (hbegun : ∀ ms, Derives r p ms → Begun pending (ms ++ [lexeme])) :
    Stacked (pending :: stack) (lexemes ++ [lexeme]) := by
  obtain ⟨ls, ms, rfl, hstack, hp⟩ := h
  rw [List.append_assoc]
  exact .cons hstack hdemand (hbegun ms hp)

/-- Behind a phrase the construct that has waited for it goes on. -/
theorem Topped.resume {waiting pending : Pending} {stack : List Pending} {r : Rule} {p : Phrase}
    {lexemes : List Lexeme} {lexeme : Lexeme} (h : Topped (waiting :: stack) r p lexemes)
    (hlevel : waiting.level ≤ pending.level)
    (hbegun : ∀ ls ms, Begun waiting ls → Derives r p ms →
      Begun pending (ls ++ (ms ++ [lexeme]))) :
    Stacked (pending :: stack) (lexemes ++ [lexeme]) := by
  obtain ⟨ls, ms, rfl, hstack, hp⟩ := h
  cases hstack with
  | cons hstack hdemand hwaiting =>
    simp only [List.append_assoc]
    exact .cons hstack (Nat.le_trans hdemand hlevel) (hbegun _ _ hwaiting hp)

/-- Behind a phrase the construct that has waited for it is closed. -/
theorem Topped.close {waiting : Pending} {stack : List Pending} {r r' : Rule} {p q : Phrase}
    {lexemes : List Lexeme} {lexeme : Lexeme} (h : Topped (waiting :: stack) r p lexemes)
    (hq : ∀ ls ms, Begun waiting ls → Derives r p ms → Derives r' q (ls ++ (ms ++ [lexeme]))) :
    Topped stack r' q (lexemes ++ [lexeme]) := by
  obtain ⟨ls, ms, rfl, hstack, hp⟩ := h
  cases hstack with
  | cons hstack hdemand hwaiting =>
    simp only [List.append_assoc]
    exact ⟨_, _, rfl, hstack, hq _ _ hwaiting hp⟩

/-- At a colon the branch in front of it is complete. -/
theorem Topped.colon {c y : Phrase} {stack : List Pending} {lexemes : List Lexeme}
    (h : Topped (.yes c :: stack) .expr y lexemes) (colon : Nat) :
    Stacked (.no c y :: stack) (lexemes ++ [⟨.colon, colon⟩]) := by
  refine h.resume (Nat.le_refl _) fun ls ms hbegun hy => ?_
  cases hbegun with
  | yes hc question =>
    rw [List.append_assoc]
    exact .no hc question hy colon

/-- At a comma the argument in front of it joins the others. -/
theorem Topped.comma {place : Nat} {function : List Char} {arguments : List Phrase} {p : Phrase}
    {stack : List Pending} {lexemes : List Lexeme}
    (h : Topped (.call place function arguments :: stack) .expr p lexemes) (comma : Nat) :
    Stacked (.call place function (arguments ++ [p]) :: stack)
      (lexemes ++ [⟨.comma, comma⟩]) := by
  refine h.resume (Nat.le_refl _) fun ls ms hbegun hlast => ?_
  cases hbegun with
  | call _ _ openParen harguments =>
    obtain ⟨a, hphrases, hyield⟩ := harguments.append hlast
    refine .call _ _ openParen (.inr ⟨a, comma, hphrases, ?_⟩)
    rw [hyield, List.append_assoc]
    rfl

theorem Topped.closeGroup {openParen : Nat} {p : Phrase} {stack : List Pending}
    {lexemes : List Lexeme} (h : Topped (.group openParen :: stack) .expr p lexemes)
    (closeParen : Nat) :
    Topped stack .indexed (.group openParen p) (lexemes ++ [⟨.closeParen, closeParen⟩]) := by
  refine h.close fun ls ms hbegun hinner => ?_
  cases hbegun with
  | group =>
    obtain ⟨inner, rfl, rfl⟩ := hinner
    exact ⟨.tighter (by decide) (.group openParen inner closeParen), rfl, rfl⟩

theorem Topped.closeCall {place : Nat} {function : List Char} {arguments : List Phrase}
    {p : Phrase} {stack : List Pending} {lexemes : List Lexeme}
    (h : Topped (.call place function arguments :: stack) .expr p lexemes) (closeParen : Nat) :
    Topped stack .indexed (.call place function (arguments ++ [p]))
      (lexemes ++ [⟨.closeParen, closeParen⟩]) := by
  refine h.close fun ls ms hbegun hlast => ?_
  cases hbegun with
  | call _ _ openParen harguments =>
    obtain ⟨a, hphrases, hyield⟩ := harguments.append hlast
    refine ⟨.tighter (by decide) (.call place function openParen a closeParen), ?_, ?_⟩
    · simp [Derivation.phrase, hphrases]
    · simp [Derivation.yield, hyield]

/-- A call without arguments is closed where its first argument would begin. -/
theorem Stacked.closeCall {place : Nat} {function : List Char} {stack : List Pending}
    {lexemes : List Lexeme} (h : Stacked (.call place function [] :: stack) lexemes)
    (closeParen : Nat) :
    Topped stack .indexed (.call place function []) (lexemes ++ [⟨.closeParen, closeParen⟩]) := by
  cases h with
  | cons hstack hdemand hbegun =>
    cases hbegun with
    | call _ _ openParen harguments =>
      rcases harguments with ⟨-, rfl⟩ | ⟨a, comma, hnil, -⟩
      · rw [List.append_assoc]
        exact ⟨_, _, rfl, hstack,
          .tighter (by decide) (.callEmpty place function openParen closeParen), rfl, rfl⟩
      · exact absurd hnil a.phrases_ne_nil

theorem Topped.closeIndex {target key : Phrase} {stack : List Pending} {lexemes : List Lexeme}
    (h : Topped (.index target :: stack) .expr key lexemes) (closeBracket : Nat) :
    Topped stack .indexed (.index target key) (lexemes ++ [⟨.closeBracket, closeBracket⟩]) := by
  refine h.close fun ls ms hbegun hkey => ?_
  cases hbegun with
  | index ht openBracket =>
    obtain ⟨target, rfl, rfl⟩ := ht
    obtain ⟨key, rfl, rfl⟩ := hkey
    refine ⟨.index target openBracket key closeBracket, rfl, ?_⟩
    simp [Derivation.yield]

theorem holds_of_readBinary {op : BinaryOp} {stack : List Pending} {p : Phrase} {next : Reader}
    {lexemes : List Lexeme} (h : Topped stack .indexed p lexemes)
    (hread : readBinary op stack p = some next) (offset : Nat) :
    Holds next (lexemes ++ [⟨.operator op, offset⟩]) := by
  have hop := op.level_le
  have hlevel := op.level_leftRule
  have hindexed : Rule.indexed.level = 7 := rfl
  have hdemand := demand_le stack
  simp only [readBinary] at hread
  split at hread
  · next hcomparison =>
    rw [if_pos hcomparison] at hlevel
    obtain ⟨htopped, hle⟩ := h.settle (op.level + 1) op.leftRule
      (by omega) (by omega) (by omega) (by omega)
    split at hread
    · cases hread
    · next hfree =>
      cases hread
      refine htopped.begin ?_ fun ms hl => .binary hl offset
      -- what waits at the level of comparisons would be one of them
      generalize (Reader.settle (op.level + 1) stack p).1 = settled at hle hfree ⊢
      unfold demand comparing at *
      split at hle
      · have hthree := BinaryOp.isComparison_iff.mp hcomparison
        omega
      · next waiting _ _ =>
        simp only [BinaryOp.isComparison_iff] at hfree hcomparison
        simp only [Pending.level]
        omega
      · exact Nat.zero_le _
  · next hcomparison =>
    rw [if_neg hcomparison] at hlevel
    cases hread
    obtain ⟨htopped, hle⟩ := h.settle op.level op.leftRule
      (by omega) (by omega) (by omega) (by omega)
    exact htopped.begin hle fun ms hl => .binary hl offset

theorem holds_of_stepBefore {stack : List Pending} {lexemes : List Lexeme} {lexeme : Lexeme}
    {next : Reader} (h : Stacked stack lexemes)
    (hstep : stepBefore stack lexeme.offset lexeme.token = some next) :
    Holds next (lexemes ++ [lexeme]) := by
  obtain ⟨token, offset⟩ := lexeme
  -- a token is an operand by itself or begins what waits for one, but for the parenthesis
  -- that closes a call without arguments
  have hatom : ∀ d : Derivation .atom, Topped stack .indexed d.phrase (lexemes ++ d.yield) :=
    fun d => ⟨lexemes, d.yield, rfl, h, .tighter (by decide) d, rfl, rfl⟩
  cases token with
  | number digits =>
    cases hstep
    exact hatom (.number offset digits)
  | bool b =>
    cases hstep
    exact hatom (.bool offset b)
  | quoted body =>
    cases hstep
    exact hatom (.quoted offset body)
  | name text =>
    cases hstep
    exact hatom (.name offset text)
  | operator op =>
    cases op with
    | subtract =>
      cases hstep
      exact .cons h (demand_le stack) (.unary offset .negate)
    | _ => cases hstep
  | bang =>
    cases hstep
    exact .cons h (demand_le stack) (.unary offset .not)
  | openParen =>
    cases hstep
    exact .cons h (Nat.le_trans (demand_le stack) (show 6 ≤ 8 by decide)) (.group offset)
  | closeParen =>
    simp only [stepBefore] at hstep
    split at hstep
    · cases hstep
      exact h.closeCall offset
    · cases hstep
  | _ => cases hstep

theorem holds_of_stepBehind {stack : List Pending} {p : Phrase} {lexemes : List Lexeme}
    {lexeme : Lexeme} {next : Reader} (h : Topped stack .indexed p lexemes)
    (hstep : stepBehind stack p lexeme.token = some next) : Holds next (lexemes ++ [lexeme]) := by
  obtain ⟨token, offset⟩ := lexeme
  have hdemand : demand stack ≤ Rule.indexed.level := Nat.le_trans (demand_le stack) (by decide)
  -- a token that goes on with a construct or closes it completes what is inside
  have hwhole := h.complete hdemand
  cases token with
  | operator op => exact holds_of_readBinary h hstep offset
  | question =>
    cases hstep
    obtain ⟨htopped, hle⟩ := h.settle 0 .or hdemand (by decide) (by decide) (by decide)
    exact htopped.begin hle fun ms hc => .yes hc offset
  | openBracket =>
    cases hstep
    exact h.begin hdemand fun ms ht => .index ht offset
  | openParen =>
    simp only [stepBehind] at hstep
    split at hstep
    · cases hstep
      refine h.begin (Nat.le_trans hdemand (show 7 ≤ 8 by decide)) ?_
      rintro ms ⟨d, hd, rfl⟩
      rw [d.yield_of_name hd]
      exact .call _ _ offset (.inl ⟨rfl, rfl⟩)
    · cases hstep
  | colon =>
    simp only [stepBehind] at hstep
    split at hstep
    · next hcomplete =>
      cases hstep
      rw [hcomplete] at hwhole
      exact hwhole.colon offset
    · cases hstep
  | comma =>
    simp only [stepBehind] at hstep
    split at hstep
    · next hcomplete =>
      cases hstep
      rw [hcomplete] at hwhole
      exact hwhole.comma offset
    · cases hstep
  | closeParen =>
    simp only [stepBehind] at hstep
    split at hstep
    · next hcomplete =>
      cases hstep
      rw [hcomplete] at hwhole
      exact hwhole.closeGroup offset
    · next hcomplete =>
      cases hstep
      rw [hcomplete] at hwhole
      exact hwhole.closeCall offset
    · cases hstep
  | closeBracket =>
    simp only [stepBehind] at hstep
    split at hstep
    · next hcomplete =>
      cases hstep
      rw [hcomplete] at hwhole
      exact hwhole.closeIndex offset
    · cases hstep
  | _ => cases hstep

/-- Reading one more token, the reader still holds what is derived. -/
theorem holds_of_step {r next : Reader} {lexemes : List Lexeme} {lexeme : Lexeme}
    (h : Holds r lexemes) (hstep : r.step lexeme = some next) :
    Holds next (lexemes ++ [lexeme]) := by
  cases r with
  | before stack => exact holds_of_stepBefore h hstep
  | behind stack p => exact holds_of_stepBehind h hstep

/-- **All the way the reader holds what is derived from the tokens it has read.** -/
theorem holds_of_run {r r' : Reader} {before lexemes : List Lexeme} (h : Holds r before)
    (hrun : r.run lexemes = .ok r') : Holds r' (before ++ lexemes) := by
  induction lexemes generalizing r before with
  | nil =>
    cases hrun
    rwa [List.append_nil]
  | cons lexeme rest ih =>
    obtain ⟨next, hstep, hrun⟩ := run_cons_eq_ok.mp hrun
    have hnext := ih (holds_of_step h hstep) hrun
    rwa [List.append_assoc] at hnext

/-! ### Reading and deriving -/

theorem Derivation.run {r : Rule} (d : Derivation r) :
    ∃ reader, start.run d.yield = .ok reader ∧ reader.result? = some d.phrase := by
  obtain ⟨stack, q, hrun, hamounts⟩ := (d.reads.loosen (Nat.zero_le _)) [] (Nat.le_refl _)
  have hcomplete : complete stack q = ([], d.phrase) := hamounts.complete
  exact ⟨_, hrun, by simp [result?, hcomplete]⟩

/-- **What is read off tokens is what the grammar derives from them.** -/
theorem run_result?_iff {lexemes : List Lexeme} {p : Phrase} :
    (∃ reader, start.run lexemes = .ok reader ∧ reader.result? = some p) ↔
      Derives .expr p lexemes := by
  constructor
  · rintro ⟨reader, hrun, hresult⟩
    have hstart : Holds start [] := Stacked.nil
    have hholds : Holds reader lexemes := holds_of_run hstart hrun
    cases reader with
    | before stack => cases hresult
    | behind stack q =>
      have htopped := Topped.complete hholds (Nat.le_trans (demand_le stack) (by decide))
      simp only [result?] at hresult
      split at hresult
      · next hcomplete =>
        cases hresult
        rw [hcomplete] at htopped
        obtain ⟨ls, ms, rfl, hstack, hp⟩ := htopped
        cases hstack
        exact hp
      · cases hresult
  · rintro ⟨d, rfl, rfl⟩
    exact d.run

/-- **Tokens are derived in one way at most.** -/
theorem Derivation.eq_of_yield {r : Rule} {d d' : Derivation r} (h : d.yield = d'.yield) :
    d = d' := by
  obtain ⟨reader, hrun, hresult⟩ := d.run
  obtain ⟨reader', hrun', hresult'⟩ := d'.run
  rw [h, hrun'] at hrun
  cases hrun
  rw [hresult'] at hresult
  exact d.eq_of_phrase d' (Option.some.inj hresult).symm h

/-- **What is read off a text is what the grammar derives from the tokens it is cut
into.** -/
theorem readPhrase_eq_ok_iff {offset : Nat} {source : List Char} {p : Phrase} :
    readPhrase offset source = .ok p ↔
      ∃ lexemes, Cut offset source lexemes ∧ Derives .expr p lexemes := by
  constructor
  · intro h
    simp only [readPhrase] at h
    split at h
    · cases h
    · next reader hrun =>
      split at h
      · cases h
      · next hstuck =>
        split at h
        · next hresult =>
          cases h
          refine ⟨_, ?_, run_result?_iff.mp ⟨reader, hrun, hresult⟩⟩
          refine (tokens_eq_iff_cut hrun).mp ?_
          rw [← hstuck]
          rfl
        · cases h
  · rintro ⟨lexemes, hcut, hp⟩
    obtain ⟨reader, hrun, hresult⟩ := run_result?_iff.mpr hp
    have htokens : Lexer.tokens .operand offset source = ⟨lexemes, none⟩ :=
      (tokens_eq_iff_cut hrun).mpr hcut
    simp [readPhrase, htokens, hrun, hresult]

/-- Reading an expression succeeds exactly on the texts that are cut into tokens the
grammar derives.  A text is derived in one way at most, and what is read off it has the
tokens of the derivation in their order and, apart from parentheses, its tree. -/
theorem readPhrase_recognizes (offset : Nat) (source : List Char) :
    (∀ p, readPhrase offset source = .ok p ↔
      ∃ d : Derivation .expr, Cut offset source d.yield ∧ d.phrase = p) ∧
    Subsingleton { d : Derivation .expr // Cut offset source d.yield } ∧
    ∀ d : Derivation .expr,
      d.phrase.tokens = d.yield.map Lexeme.token ∧ d.phrase.erase = d.tree := by
  refine ⟨fun p => readPhrase_eq_ok_iff.trans ⟨?_, ?_⟩, ⟨?_⟩, fun d => ?_⟩
  · rintro ⟨_, hcut, d, hphrase, rfl⟩
    exact ⟨d, hcut, hphrase⟩
  · rintro ⟨d, hcut, hphrase⟩
    exact ⟨d.yield, hcut, d, hphrase, rfl⟩
  · rintro ⟨d, hcut⟩ ⟨d', hcut'⟩
    exact Subtype.ext (Derivation.eq_of_yield (hcut.unique hcut'))
  · exact ⟨d.tokens_phrase, d.erase_phrase⟩

end Interpolation.Template
