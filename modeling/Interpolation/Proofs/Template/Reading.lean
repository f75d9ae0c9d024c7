/-
The reader of tokens accepts the grammar.

* `Reads` — where a phrase may stand, the reader goes over its tokens and ends with it;
* `Reads.binary`, `Reads.conditional`, `Reads.index`, … — phrases are read when their parts
  are;
* `Derivation.reads` — what the grammar derives is read.

Design notes: the reader does not complete an operand at its last token but when the next
operator shows that it is over.  So what stands on the stack behind a phrase is not the
phrase itself; it amounts to it (`Amounts`) for every token that may end it.  How tightly an
operand must be bound is decided by the construct that waits for it (`demand`).
-/
import Interpolation.Proofs.Template.Grammar
import Interpolation.Template.Phrase.Reader

namespace Interpolation.Template

namespace BinaryOp

theorem level_pos (op : BinaryOp) : 1 ≤ op.level := by
  cases op <;> decide

theorem level_le (op : BinaryOp) : op.level ≤ 5 := by
  cases op <;> decide

theorem isComparison_iff {op : BinaryOp} : op.isComparison = true ↔ op.level = 3 :=
  beq_iff_eq

theorem level_leftRule (op : BinaryOp) :
    op.leftRule.level = if op.isComparison then op.level + 1 else op.level := by
  cases op <;> rfl

end BinaryOp

namespace Reader

/-- How tightly an operand must be bound for a stack that waits for it. -/
def demand : List Pending → Nat
  | .unary .. :: _ => 6
  | .binary op _ :: _ => op.level + 1
  | _ => 0

theorem demand_le (stack : List Pending) : demand stack ≤ 6 := by
  unfold demand
  split
  · omega
  · next op _ _ =>
    have hop := op.level_le
    omega
  · omega

/-- Nothing is completed that binds less tightly than the stack demands. -/
theorem settle_of_demand {level : Nat} {stack : List Pending} (h : demand stack ≤ level)
    (hlevel : level ≤ 5) (p : Phrase) : settle level stack p = (stack, p) := by
  unfold settle
  split
  · simp only [demand] at h
    omega
  · simp only [demand] at h
    rw [if_neg (by omega)]
  · rfl

/-- Reading goes on with the next token from where the tokens before it lead. -/
theorem run_through {r middle next : Reader} {lexemes rest : List Lexeme} {lexeme : Lexeme}
    (h : r.run lexemes = .ok middle) (hstep : middle.step lexeme = some next) :
    r.run (lexemes ++ lexeme :: rest) = next.run rest := by
  rw [run_append, h]
  show middle.run (lexeme :: rest) = next.run rest
  rw [run_cons, hstep]

/-! ### Derivations are read -/

/-- An operand on top of a stack amounts to a phrase on top of another one: whatever ends
the operand makes the same of both. -/
structure Amounts (level : Nat) (stack' : List Pending) (q : Phrase) (stack : List Pending)
    (p : Phrase) : Prop where
  complete : complete stack' q = complete stack p
  settle : 1 ≤ level → ∀ l ≤ level, settle l stack' q = settle l stack p
  tight : 7 ≤ level → stack' = stack ∧ q = p

/-- Where a phrase bound as tightly as a level may stand, the reader goes over its tokens
and ends with what amounts to the phrase. -/
def Reads (level : Nat) (p : Phrase) (lexemes : List Lexeme) : Prop :=
  ∀ stack, demand stack ≤ level → ∃ stack' q,
    (before stack).run lexemes = .ok (.behind stack' q) ∧ Amounts level stack' q stack p

theorem Amounts.refl (level : Nat) (stack : List Pending) (p : Phrase) :
    Amounts level stack p stack p :=
  ⟨rfl, fun _ _ _ => rfl, fun _ => ⟨rfl, rfl⟩⟩

theorem Reads.loosen {level level' : Nat} {p : Phrase} {lexemes : List Lexeme}
    (h : Reads level p lexemes) (hle : level' ≤ level) : Reads level' p lexemes := by
  intro stack hstack
  obtain ⟨stack', q, hrun, hamounts⟩ := h stack (Nat.le_trans hstack hle)
  refine ⟨stack', q, hrun, hamounts.complete, fun hpos l hl => ?_, fun htight => ?_⟩
  · exact hamounts.settle (Nat.le_trans hpos hle) l (Nat.le_trans hl hle)
  · exact hamounts.tight (Nat.le_trans htight hle)

/-- An operator takes all of its left operand, and leaves alone what waits for it. -/
theorem readBinary_eq {op : BinaryOp} {stack stack' : List Pending} {l q : Phrase}
    (hstack : demand stack ≤ op.level) (hamounts : Amounts op.leftRule.level stack' q stack l) :
    readBinary op stack' q = some (.before (.binary op l :: stack)) := by
  have hop := op.level_le
  have hpos := op.level_pos
  have hlevel := op.level_leftRule
  by_cases hcomparison : op.isComparison
  · have hthree := BinaryOp.isComparison_iff.mp hcomparison
    rw [if_pos hcomparison] at hlevel
    have hsettle : settle (op.level + 1) stack' q = (stack, l) := by
      rw [hamounts.settle (by omega) _ (by omega), settle_of_demand (by omega) (by omega)]
    -- no comparison waits for the left operand of another one
    have hfree : comparing stack = false := by
      unfold comparing
      split
      · next waiting _ _ =>
        rw [Bool.eq_false_iff, ne_eq, BinaryOp.isComparison_iff]
        simp only [demand] at hstack
        omega
      · rfl
    simp [readBinary, hcomparison, hsettle, hfree]
  · rw [if_neg hcomparison] at hlevel
    have hsettle : settle op.level stack' q = (stack, l) := by
      rw [hamounts.settle (by omega) _ (by omega), settle_of_demand hstack hop]
    simp [readBinary, hcomparison, hsettle]

theorem Reads.binary {op : BinaryOp} {l m : Phrase} {ls ms : List Lexeme}
    (hl : Reads op.leftRule.level l ls) (hm : Reads (op.level + 1) m ms) (offset : Nat) :
    Reads op.level (.binary op l m) (ls ++ ⟨.operator op, offset⟩ :: ms) := by
  intro stack hstack
  have hop := op.level_le
  have hleft : op.level ≤ op.leftRule.level := by
    rw [op.level_leftRule]
    split <;> omega
  obtain ⟨stack₁, q₁, hrun₁, hamounts₁⟩ := hl stack (Nat.le_trans hstack hleft)
  obtain ⟨stack₂, q₂, hrun₂, hamounts₂⟩ := hm (.binary op l :: stack) (Nat.le_refl _)
  have hstep : (behind stack₁ q₁).step ⟨.operator op, offset⟩ =
      some (.before (.binary op l :: stack)) := readBinary_eq hstack hamounts₁
  refine ⟨stack₂, q₂, ?_, hamounts₂.complete, fun _ level hlevel => ?_, fun h => by omega⟩
  · rw [run_through hrun₁ hstep, hrun₂]
  · rw [hamounts₂.settle (by omega) level (by omega), settle, if_pos hlevel]

/-- What a single token says is read as it stands. -/
theorem Reads.single {p : Phrase} {lexeme : Lexeme}
    (h : ∀ stack, (before stack).step lexeme = some (.behind stack p)) : Reads 8 p [lexeme] := by
  intro stack _
  refine ⟨stack, p, ?_, .refl _ _ _⟩
  rw [run_cons, h]
  rfl

theorem Reads.unary {p : Phrase} {lexemes : List Lexeme} (h : Reads 6 p lexemes) (op : UnaryOp)
    (offset : Nat) :
    Reads 6 (.unary offset op p) (⟨Phrase.unaryToken op, offset⟩ :: lexemes) := by
  intro stack _
  obtain ⟨stack', q, hrun, hamounts⟩ := h (.unary offset op :: stack) (Nat.le_refl _)
  have hstep : (before stack).step ⟨Phrase.unaryToken op, offset⟩ =
      some (.before (.unary offset op :: stack)) := by
    cases op <;> rfl
  refine ⟨stack', q, ?_, hamounts.complete, fun _ level hlevel => ?_, fun h => by omega⟩
  · rw [run_cons, hstep]
    exact hrun
  · rw [hamounts.settle (by omega) level hlevel, settle]

theorem Reads.conditional {c y n : Phrase} {cs ys ns : List Lexeme} (hc : Reads 1 c cs)
    (hy : Reads 0 y ys) (hn : Reads 0 n ns) (question colon : Nat) :
    Reads 0 (.conditional c y n)
      (cs ++ ⟨.question, question⟩ :: (ys ++ ⟨.colon, colon⟩ :: ns)) := by
  intro stack hstack
  obtain ⟨stack₁, q₁, hrun₁, hamounts₁⟩ := hc stack (Nat.le_trans hstack (Nat.zero_le 1))
  obtain ⟨stack₂, q₂, hrun₂, hamounts₂⟩ := hy (.yes c :: stack) (Nat.le_refl _)
  obtain ⟨stack₃, q₃, hrun₃, hamounts₃⟩ := hn (.no c y :: stack) (Nat.le_refl _)
  have hquestion : (behind stack₁ q₁).step ⟨.question, question⟩ =
      some (.before (.yes c :: stack)) := by
    have hsettle : settle 0 stack₁ q₁ = (stack, c) := by
      rw [hamounts₁.settle (Nat.le_refl 1) 0 (Nat.zero_le 1), settle_of_demand hstack (by omega)]
    simp [step, stepBehind, hsettle]
  have hcolon : (behind stack₂ q₂).step ⟨.colon, colon⟩ =
      some (.before (.no c y :: stack)) := by
    have hcomplete : complete stack₂ q₂ = (.yes c :: stack, y) := hamounts₂.complete
    simp [step, stepBehind, hcomplete]
  refine ⟨stack₃, q₃, ?_, hamounts₃.complete, fun h => by omega, fun h => by omega⟩
  rw [run_through hrun₁ hquestion, run_through hrun₂ hcolon, hrun₃]

theorem Reads.index {t k : Phrase} {ts ks : List Lexeme} (ht : Reads 7 t ts)
    (hk : Reads 0 k ks) (openBracket closeBracket : Nat) :
    Reads 7 (.index t k)
      (ts ++ ⟨.openBracket, openBracket⟩ :: (ks ++ [⟨.closeBracket, closeBracket⟩])) := by
  intro stack hstack
  obtain ⟨stack₁, q₁, hrun₁, hamounts₁⟩ := ht stack hstack
  obtain ⟨rfl, rfl⟩ := hamounts₁.tight (Nat.le_refl 7)
  obtain ⟨stack₂, q₂, hrun₂, hamounts₂⟩ := hk (.index q₁ :: stack₁) (Nat.le_refl _)
  have hclose : (behind stack₂ q₂).step ⟨.closeBracket, closeBracket⟩ =
      some (.behind stack₁ (.index q₁ k)) := by
    have hcomplete : complete stack₂ q₂ = (.index q₁ :: stack₁, k) := hamounts₂.complete
    simp [step, stepBehind, hcomplete]
  refine ⟨stack₁, .index q₁ k, ?_, .refl _ _ _⟩
  rw [run_through hrun₁ rfl, run_through hrun₂ hclose, run_nil]

theorem Reads.group {p : Phrase} {lexemes : List Lexeme} (h : Reads 0 p lexemes)
    (openParen closeParen : Nat) :
    Reads 8 (.group openParen p)
      (⟨.openParen, openParen⟩ :: (lexemes ++ [⟨.closeParen, closeParen⟩])) := by
  intro stack _
  obtain ⟨stack', q, hrun, hamounts⟩ := h (.group openParen :: stack) (Nat.le_refl _)
  have hclose : (behind stack' q).step ⟨.closeParen, closeParen⟩ =
      some (.behind stack (.group openParen p)) := by
    have hcomplete : complete stack' q = (.group openParen :: stack, p) := hamounts.complete
    simp [step, stepBehind, hcomplete]
  refine ⟨stack, .group openParen p, ?_, .refl _ _ _⟩
  show (before (.group openParen :: stack)).run (lexemes ++ [⟨.closeParen, closeParen⟩]) = _
  rw [run_through hrun hclose, run_nil]

/-- Inside the parentheses of a call the reader goes over the arguments and ends with the
last of them on top of the others. -/
def ReadsArguments (phrases : List Phrase) (lexemes : List Lexeme) : Prop :=
  ∀ stack offset function, ∃ stack' q others last,
    (before (.call offset function [] :: stack)).run lexemes = .ok (.behind stack' q) ∧
      complete stack' q = (.call offset function others :: stack, last) ∧
        others ++ [last] = phrases

theorem ReadsArguments.one {p : Phrase} {lexemes : List Lexeme} (h : Reads 0 p lexemes) :
    ReadsArguments [p] lexemes := by
  intro stack offset function
  obtain ⟨stack', q, hrun, hamounts⟩ := h (.call offset function [] :: stack) (Nat.le_refl _)
  exact ⟨stack', q, [], p, hrun, hamounts.complete, rfl⟩

theorem ReadsArguments.more {phrases : List Phrase} {p : Phrase} {before last : List Lexeme}
    (h : ReadsArguments phrases before) (hp : Reads 0 p last) (comma : Nat) :
    ReadsArguments (phrases ++ [p]) (before ++ ⟨.comma, comma⟩ :: last) := by
  intro stack offset function
  obtain ⟨stack₁, q₁, others, argument, hrun₁, hcomplete, rfl⟩ := h stack offset function
  obtain ⟨stack₂, q₂, hrun₂, hamounts₂⟩ :=
    hp (.call offset function (others ++ [argument]) :: stack) (Nat.le_refl _)
  have hcomma : (behind stack₁ q₁).step ⟨.comma, comma⟩ =
      some (.before (.call offset function (others ++ [argument]) :: stack)) := by
    simp [step, stepBehind, hcomplete]
  refine ⟨stack₂, q₂, others ++ [argument], p, ?_, hamounts₂.complete, rfl⟩
  rw [run_through hrun₁ hcomma, hrun₂]

theorem ReadsArguments.call {phrases : List Phrase} {lexemes : List Lexeme}
    (h : ReadsArguments phrases lexemes) (offset : Nat) (function : List Char)
    (openParen closeParen : Nat) :
    Reads 8 (.call offset function phrases)
      (⟨.name function, offset⟩ :: ⟨.openParen, openParen⟩ ::
        (lexemes ++ [⟨.closeParen, closeParen⟩])) := by
  intro stack _
  obtain ⟨stack', q, others, last, hrun, hcomplete, rfl⟩ := h stack offset function
  have hclose : (behind stack' q).step ⟨.closeParen, closeParen⟩ =
      some (.behind stack (.call offset function (others ++ [last]))) := by
    simp [step, stepBehind, hcomplete]
  refine ⟨stack, .call offset function (others ++ [last]), ?_, .refl _ _ _⟩
  show (before (.call offset function [] :: stack)).run
    (lexemes ++ [⟨.closeParen, closeParen⟩]) = _
  rw [run_through hrun hclose, run_nil]

end Reader

open Reader

mutual

/-- **What the grammar derives is read.** -/
theorem Derivation.reads {r : Rule} : (d : Derivation r) → Reads r.level d.phrase d.yield
  | .tighter hr d => by
    refine d.reads.loosen ?_
    rw [Rule.level_tighter hr]
    omega
  | .conditional c question y colon n => c.reads.conditional y.reads n.reads question colon
  | .binary op hop left offset right => by
    have hleft := left.reads
    have hright := right.reads
    subst hop
    rw [op.level_tighter_rule] at hright
    rw [op.level_rule]
    exact hleft.binary hright offset
  | .unary op offset operand => operand.reads.unary op offset
  | .index target openBracket key closeBracket =>
    target.reads.index key.reads openBracket closeBracket
  | .number .. | .bool .. | .quoted .. | .name .. => .single fun _ => rfl
  | .callEmpty offset function openParen closeParen => fun stack _ =>
    ⟨stack, .call offset function [], rfl, .refl _ _ _⟩
  | .call offset function openParen arguments closeParen =>
    arguments.reads.call offset function openParen closeParen
  | .group openParen inner closeParen => inner.reads.group openParen closeParen

theorem Arguments.reads :
    (arguments : Arguments) → ReadsArguments arguments.phrases arguments.yield
  | .one argument => .one argument.reads
  | .more init comma last => init.reads.more last.reads comma

end

end Interpolation.Template
