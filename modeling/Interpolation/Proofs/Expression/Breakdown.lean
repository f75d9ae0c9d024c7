/-
Where an expression breaks down.

* `BreaksDownAt` — the operations that end in a fault, one rule for each;
* `value_eq_error_iff` — an expression that was read from a text gives a value or diagnostics
  unless its evaluation comes to one of them.

Design notes: a fault is a failure that is not reported.  In an expression that was read from a
text, whose names are interpreted in the usual way and whose functions do not break down, all
faults are about numbers: a whole number is too large for floating-point arithmetic, or has too
many digits to be read or shown, or the remainder of an infinite number is asked for.
-/
import Interpolation.Proofs.Config.LongKeys
import Interpolation.Proofs.Evaluation.Faults
import Interpolation.Proofs.Evaluation.Machine
import Interpolation.Proofs.Evaluation.Reach
import Interpolation.Proofs.Expression.Dependency
import Interpolation.Proofs.Expression.Reference
import Mathlib.Algebra.Ring.Int.Defs

namespace Interpolation

namespace Config

/-- The functions of a context give values or refuse their arguments; they do not break
down. -/
def Context.IsReliable (c : Context) : Prop :=
  ∀ name f, c.lookupFunction name = some f →
    ∀ arguments message, f.call arguments ≠ .error (.broken message)

end Config

namespace Expression

open Config
open Digits (IsTooLong)

/-! ### Names -/

theorem isPath_append_stepOf {steps : List Step} (h : IsPath steps) (token : Token) :
    IsPath (steps ++ [stepOf steps.isEmpty token]) := by
  cases steps with
  | nil => exact ⟨⟨_, _, rfl⟩, fun _ h => absurd h List.not_mem_nil⟩
  | cons first rest =>
    refine ⟨h.1, List.forall_mem_append.mpr ⟨h.2, ?_⟩⟩
    exact List.forall_mem_singleton.mpr ⟨_, _, rfl⟩

theorem gather_isPath {steps path : List Step} {separator : Option Range} {tokens : List Token}
    (hsteps : IsPath steps) (h : gather steps separator tokens = .ok path) : IsPath path := by
  fun_induction gather steps separator tokens with
  | case1 steps dot => cases h
  | case2 steps =>
    cases h
    exact hsteps
  | case3 => cases h
  | case4 steps separator token rest hdot hseparator ih => exact ih hsteps h
  | case5 steps separator token rest hdot ih => exact ih (isPath_append_stepOf hsteps token) h

theorem traversalOf_isPath {name : String} {range : Range} {t : Traversal}
    (h : traversalOf name range = .ok t) : IsPath t.steps := by
  obtain ⟨steps, hsteps, h⟩ := bind_eq_ok.mp h
  have hpath : IsPath steps := gather_isPath (show IsPath [] from trivial) hsteps
  cases steps with
  | nil => cases h
  | cons first rest =>
    cases h
    exact hpath

/-- The look-up of a name breaks down as its path does. -/
theorem interpretName_eq_error {name : String} {range : Range} {context : Option Context}
    {f : Fault} :
    (interpretName name range).value context = .error (.fault f) ↔
      ∃ t c s, traversalOf name range = .ok t ∧ context = some c ∧ EntersList c t s ∧
        IsTooLong s ∧ f = .tooManyDigitsToRead s.toList.length := by
  unfold interpretName Reference.ofName
  cases ht : traversalOf name range with
  | error e =>
    have hnone : (Reference.failing [e.diagnostic range] range).lookup.value context ≠
        .error (.fault f) := nofun
    simp [hnone]
  | ok t =>
    have hpath : (Reference.path t).lookup.value context = .error (.fault f) ↔
        t.value context = .error f := by
      show (t.value context).mapError LookupFailure.fault = _ ↔ _
      cases t.value context <;> simp [Except.mapError]
    refine hpath.trans ((Traversal.value_eq_error (traversalOf_isPath ht)).trans ?_)
    simp

end Expression

namespace Evaluation

open Config (Context EntersList Traversal)
open Digits (IsTooLong)
open Expression (Origin interpretName interpretName_eq_error owner_of_mem_subtrees_adopt
  traversalOf)
open Template (Node BinaryOp)

/-! ### Operations -/

/-- The operation of a node breaks down on the values that its kids have come to. -/
inductive BreaksDownAt (context : Option Context) : Node Origin → Fault → Prop
  /-- A value that is no bool is used as one, and is too long to be shown. -/
  | negation {p : Template.Pos} {operand : Node Origin} {v : Value} {visits : List Visit}
      (hoperand : Evaluates (.ofContext context) operand v visits) (hv : v.display = none) :
      BreaksDownAt context (.unary p .not operand) .tooManyDigits
  | firstOperand {p : Template.Pos} {op : BinaryOp} {left right : Node Origin} {v : Value}
      {visits : List Visit} (hlazy : isLazy op = true)
      (hleft : Evaluates (.ofContext context) left v visits) (hv : v.display = none) :
      BreaksDownAt context (.binary p op left right) .tooManyDigits
  | secondOperand {p : Template.Pos} {op : BinaryOp} {left right : Node Origin} {v w : Value}
      {visits others : List Visit} (hlazy : isLazy op = true)
      (hleft : Evaluates (.ofContext context) left v visits)
      (hgoes : firstDecides op v = .ok none)
      (hright : Evaluates (.ofContext context) right w others) (hw : w.display = none) :
      BreaksDownAt context (.binary p op left right) .tooManyDigits
  | condition {p : Template.Pos} {condition yes no : Node Origin} {v : Value}
      {visits : List Visit} (hcondition : Evaluates (.ofContext context) condition v visits)
      (hv : v.display = none) :
      BreaksDownAt context (.conditional p condition yes no) .tooManyDigits
  /-- A whole number is too large to be rounded, and is not divided by zero. -/
  | overflow {p : Template.Pos} {op : BinaryOp} {left right : Node Origin} {v w : Value}
      {visits others : List Visit} {a b : Number} (hop : op.isLogical = false)
      (hleft : Evaluates (.ofContext context) left v visits)
      (hright : Evaluates (.ofContext context) right w others) (ha : v.toNumber = .ok a)
      (hb : w.toNumber = .ok b) (hlarge : a.Mismatched b)
      (hdivisor : op = .divide ∨ op = .modulo → b.isZero = false) :
      BreaksDownAt context (.binary p op left right) .overflow
  /-- An infinite number has no remainder. -/
  | domain {p : Template.Pos} {left right : Node Origin} {v w : Value}
      {visits others : List Visit} {a b : Number}
      (hleft : Evaluates (.ofContext context) left v visits)
      (hright : Evaluates (.ofContext context) right w others) (ha : v.toNumber = .ok a)
      (hb : w.toNumber = .ok b) (hdivisor : b.isZero = false) (hinfinite : a.HasNoRemainder b) :
      BreaksDownAt context (.binary p .modulo left right) .domain
  /-- A list has no item at a position that is too long to be shown. -/
  | position {p : Template.Pos} {target key : Node Origin} {v : Value} {items : List Value}
      {i : Int} {visits others : List Visit}
      (htarget : Evaluates (.ofContext context) target v visits)
      (hitems : v = .list items ∨ v = .tuple items)
      (hkey : Evaluates (.ofContext context) key (.int i) others)
      (hout : ¬(0 ≤ i ∧ i < items.length)) (hi : Digits.text? i = none) :
      BreaksDownAt context (.index p target key) .tooManyDigits
  /-- A map has no entry under a key that is too long to be shown. -/
  | entry {p : Template.Pos} {target key : Node Origin} {w : Value}
      {entries : List (String × Value)} {visits others : List Visit}
      (htarget : Evaluates (.ofContext context) target (.map entries) visits)
      (hkey : Evaluates (.ofContext context) key w others) (hw : w.display = none) :
      BreaksDownAt context (.index p target key) .tooManyDigits
  /-- A name leads into a list by a key that is too long to be read. -/
  | path {o : Origin} {p : Template.Pos} {name s : String} {c : Context} {t : Traversal}
      (hcontext : context = some c) (ht : traversalOf name (o.nameRange p name) = .ok t)
      (henters : EntersList c t s) (hlong : IsTooLong s) :
      BreaksDownAt context (.access (some o) p name) (.tooManyDigitsToRead s.toList.length)

variable {context : Option Context}

theorem BreaksDownAt.failsAt {m : Node Origin} {f : Fault} (h : BreaksDownAt context m f)
    (husual : ∀ o p name, m = .access (some o) p name → o.interpret = interpretName) :
    FailsAt (.ofContext context) m (.fault f) := by
  cases h with
  | negation hoperand hv => exact .unary hoperand (applyUnary_eq_fault.mpr ⟨rfl, hv, rfl⟩)
  | firstOperand hlazy hleft hv =>
    exact .first hlazy hleft (firstDecides_eq_fault.mpr ⟨hv, rfl⟩)
  | secondOperand hlazy hleft hgoes hright hw =>
    exact .second hlazy hleft hgoes hright (secondDecides_eq_fault.mpr ⟨hw, rfl⟩)
  | condition hcondition hv => exact .choice hcondition (chooses_eq_fault.mpr ⟨hv, rfl⟩)
  | overflow hop hleft hright ha hb hlarge hdivisor =>
    have hstrict := isLazy_of_isLogical hop
    have hr := (arithmetic_eq_overflow hop).mpr ⟨hlarge, hdivisor⟩
    refine .operands hstrict hleft hright ((applyBinary_eq_fault hstrict).mpr ?_)
    exact ⟨hop, _, _, ha, hb, .inl ⟨hr, rfl⟩⟩
  | domain hleft hright ha hb hdivisor hinfinite =>
    have hr := (arithmetic_eq_domain rfl).mpr ⟨rfl, hdivisor, hinfinite⟩
    refine .operands rfl hleft hright ((applyBinary_eq_fault rfl).mpr ?_)
    exact ⟨rfl, _, _, ha, hb, .inr ⟨hr, rfl⟩⟩
  | position htarget hitems hkey hout hi =>
    refine .index htarget hkey (applyIndex_eq_fault.mpr ⟨.inl ?_, rfl⟩)
    exact ⟨_, _, hitems, rfl, hout, hi⟩
  | entry htarget hkey hw =>
    exact .index htarget hkey (applyIndex_eq_fault.mpr ⟨.inr ⟨_, rfl, hw⟩, rfl⟩)
  | path hcontext ht henters hlong =>
    refine .brokenLookup rfl ?_
    rw [Origin.lookup, husual _ _ _ rfl]
    exact interpretName_eq_error.mpr ⟨_, _, _, ht, hcontext, henters, hlong, rfl⟩

/-- Reliable functions are the only ones that a call comes upon. -/
theorem callOwned_ne_fault (hfunctions : ∀ c, context = some c → c.IsReliable) (o : Origin)
    (p : Template.Pos) (name : String) (places : List Template.Pos) (arguments : List Value)
    (f : Fault) : callOwned (.ofContext context) o p name places arguments ≠ .error (.fault f) := by
  intro h
  unfold callOwned at h
  -- one case for each end of a call; only the last one is a fault
  dsimp only [contextOf, Scope.ofContext, bind, Except.bind] at h
  split at h
  · cases h
  · next c =>
    split at h
    · cases h
    · next g hg =>
      split at h
      · cases h
      · split at h
        · cases h
        · split at h
          · cases h
          · next message argument _ =>
            obtain ⟨_, _, _, hrefusal⟩ := refusal_eq_failedCall o p name places message argument
            rw [hrefusal] at h
            cases h
          · cases h
          · cases h
          · next hbroken => exact hfunctions c rfl name g hg _ _ hbroken

/-- In an expression that was read there is nothing else to break down. -/
theorem FailsAt.breaksDownAt (hfunctions : ∀ c, context = some c → c.IsReliable)
    {m : Node Origin} {f : Fault} (h : FailsAt (.ofContext context) m (.fault f))
    (hbare : ∀ p kids, m ≠ .bare p kids)
    (haccess : ∀ o p name, m = .access o p name →
      ∃ origin, o = some origin ∧ origin.interpret = interpretName)
    (hcall : ∀ o p name arguments, m = .call o p name arguments → o ≠ none) :
    BreaksDownAt context m f := by
  cases h with
  | bare => exact absurd rfl (hbare _ _)
  | output _ he => exact (joinParts_fails _ _ he).elim
  | freeAccess =>
    obtain ⟨_, hnone, _⟩ := haccess _ _ _ rfl
    cases hnone
  | noContext he => cases he
  | brokenLookup hcontext hf =>
    cases hcontext
    obtain ⟨_, ho, husual⟩ := haccess _ _ _ rfl
    cases ho
    rw [Origin.lookup, husual] at hf
    obtain ⟨t, c, s, ht, hcontext, henters, hlong, rfl⟩ := interpretName_eq_error.mp hf
    exact .path hcontext ht henters hlong
  | unknownFunction | freeCall => exact absurd rfl (hcall _ _ _ _ rfl)
  | ownedCall _ he => exact absurd he (callOwned_ne_fault hfunctions _ _ _ _ _ _)
  | unary hoperand he =>
    obtain ⟨rfl, hv, rfl⟩ := applyUnary_eq_fault.mp he
    exact .negation hoperand hv
  | first hlazy hleft he =>
    obtain ⟨hv, rfl⟩ := firstDecides_eq_fault.mp he
    exact .firstOperand hlazy hleft hv
  | second hlazy hleft hgoes hright he =>
    obtain ⟨hw, rfl⟩ := secondDecides_eq_fault.mp he
    exact .secondOperand hlazy hleft hgoes hright hw
  | operands hstrict hleft hright he =>
    obtain ⟨hop, a, b, ha, hb, ⟨hr, rfl⟩ | ⟨hr, rfl⟩⟩ := (applyBinary_eq_fault hstrict).mp he
    · obtain ⟨hlarge, hdivisor⟩ := (arithmetic_eq_overflow hop).mp hr
      exact .overflow hop hleft hright ha hb hlarge hdivisor
    · obtain ⟨rfl, hdivisor, hinfinite⟩ := (arithmetic_eq_domain hop).mp hr
      exact .domain hleft hright ha hb hdivisor hinfinite
  | choice hcondition he =>
    obtain ⟨hv, rfl⟩ := chooses_eq_fault.mp he
    exact .condition hcondition hv
  | index htarget hkey he =>
    obtain ⟨⟨items, i, hitems, rfl, hout, hi⟩ | ⟨entries, rfl, hw⟩, rfl⟩ :=
      applyIndex_eq_fault.mp he
    · exact .position htarget hitems hkey hout hi
    · exact .entry htarget hkey hw

end Evaluation

namespace Expression

open Config (Context found)
open Evaluation (BreaksDownAt Evaluates FailsIn Reaches)
open Template (Node)

/-! ### Expressions -/

/-- An expression breaks down as the evaluation of its tree does. -/
theorem value_eq_error {e : Expression} {context : Option Context} {f : Fault} :
    e.value context = .error f ↔ FailsIn (.ofContext context) e.root (.fault f) := by
  rw [← Evaluation.eval_failsWith (.ofContext context) e.root [] (.fault f)]
  unfold value
  rw [Evaluation.evaluate_eq_eval]
  cases Evaluation.eval (.ofContext context) e.root [] with
  | ok r => simp
  | error failure =>
    have hproblem : Problem.ofFailure failure = .error f ↔ failure = .fault f := by
      unfold Problem.ofFailure
      split <;> simp_all
    cases hr : Problem.ofFailure failure <;>
      simp [hr, bind, Except.bind, pure, Except.pure, ← hproblem]

/-- Reading gives no nodes without a meaning of their own. -/
theorem ne_bare_of_mem_subtrees_adopt {n : Node Origin} (hn : n.Raw) {origin : Origin}
    {m : Node Origin} (hm : m ∈ (n.adopt origin).subtrees) (p : Template.Pos)
    (kids : List (Node Origin)) : m ≠ .bare p kids := by
  rw [Node.subtrees_adopt] at hm
  obtain ⟨k, hk, rfl⟩ := List.mem_map.mp hm
  intro h
  cases k with
  | bare => cases hn _ hk
  | _ => simp at h

/-- **An expression breaks down on extreme numbers only.**  An expression that was read from a
text ends in a fault exactly if its evaluation comes to an operation that the operands are too
much for; otherwise it gives a value, or no value and diagnostics. -/
theorem value_eq_error_iff {text file : String} {start : Config.Pos} {e : Expression}
    (hparse : parse text file start interpretName = .ok (.ok e)) {context : Option Context}
    (hfunctions : ∀ c, context = some c → c.IsReliable) (f : Fault) :
    e.value context = .error f ↔
      ∃ m, Reaches (.ofContext context) e.root m ∧ BreaksDownAt context m f := by
  obtain ⟨n, _, hraw, rfl⟩ := parse_eq_ok hparse
  refine value_eq_error.trans (exists_congr fun m => and_congr_right fun hm => ?_)
  obtain ⟨haccess, hcall⟩ := owner_of_mem_subtrees_adopt hraw hm.mem_subtrees
  constructor
  · intro h
    refine h.breaksDownAt hfunctions (ne_bare_of_mem_subtrees_adopt hraw hm.mem_subtrees) ?_ ?_
    · exact fun o p name heq => ⟨_, haccess o p name heq, rfl⟩
    · intro o p name arguments heq hnone
      cases (hcall o p name arguments heq).symm.trans hnone
  · refine fun h => h.failsAt fun o p name heq => ?_
    cases haccess _ p name heq
    rfl

/-- The variables `x` and `y` of a context without functions. -/
private def pair (x y : Value) : Context :=
  ⟨⟨[("x", x), ("y", y)], []⟩, []⟩

private theorem pair_isReliable (x y : Value) : (pair x y).IsReliable := by
  intro name f hf
  cases hf

/-- The origin of a text at the beginning of a file. -/
private abbrev originOf (text : String) : Origin :=
  ⟨Utf8.encode text.toList, .initial, interpretName⟩

/-- A name has the value that it would have anywhere else. -/
private theorem evaluates_access (text : String) (p : Template.Pos) {name : String} {c : Context}
    {v : Value} (h : found ((interpretName name (.placeholder "")).value (some c)) = some v) :
    Evaluates (.ofContext (some c)) (.access (some (originOf text)) p name) v.toTemplate
      [⟨originOf text, p, name, []⟩] := by
  have hfound := (found_interpretName name ((originOf text).nameRange p name) _ _).trans h
  have hvalue : ((originOf text).lookup p name).value (some c) = .ok (.ofValue v) :=
    (interpretName_terse _ _ _).eq_ofValue hfound
  exact .ownedAccess rfl hvalue rfl

private theorem found_x (x y : Value) :
    found ((interpretName "x" (.placeholder "")).value (some (pair x y))) = some x := by
      with_unfolding_all rfl

private theorem found_y (x y : Value) :
    found ((interpretName "y" (.placeholder "")).value (some (pair x y))) = some y := by
      with_unfolding_all rfl

/-- The expression `${x ? 1 : y}`. -/
private def branching : Expression :=
  ofNode (.output ⟨"", 1, 1⟩ [.conditional ⟨"", 1, 3⟩ (.access none ⟨"", 1, 3⟩ "x")
    (.literal ⟨"", 1, 7⟩ (.int 1)) (.access none ⟨"", 1, 11⟩ "y")]) (originOf "${x ? 1 : y}")

/-- A condition that is a whole number is reported unless it has too many digits. -/
theorem value_branching_tooManyDigits :
    parse "${x ? 1 : y}" "" .initial interpretName = .ok (.ok branching) ∧
      (pair (.int (10 ^ Digits.digitLimit)) .null).IsReliable ∧
      branching.value (some (pair (.int (10 ^ Digits.digitLimit)) .null)) =
        .error .tooManyDigits := by
  have hparse : parse "${x ? 1 : y}" "" .initial interpretName = .ok (.ok branching) := by
    with_unfolding_all rfl
  have hreliable := pair_isReliable (.int (10 ^ Digits.digitLimit)) .null
  have hdisplay : (Value.int (10 ^ Digits.digitLimit)).display = none := by
    have habs : ((10 : Int) ^ Digits.digitLimit).natAbs = 10 ^ Digits.digitLimit :=
      Int.natAbs_pow 10 _
    rw [Value.display, Digits.text?, habs]
    exact if_neg (Nat.lt_irrefl _)
  refine ⟨hparse, hreliable, (value_eq_error_iff hparse ?_ _).mpr ?_⟩
  · rintro c ⟨⟩
    exact hreliable
  · have hx := evaluates_access "${x ? 1 : y}" ⟨"", 1, 3⟩
      (found_x (.int (10 ^ Digits.digitLimit)) .null)
    exact ⟨_, .step (.part .nil) (.self _), .condition hx hdisplay⟩

/-- The expression `${x + y}`. -/
private def sum : Expression :=
  ofNode (.output ⟨"", 1, 1⟩ [.binary ⟨"", 1, 3⟩ .add (.access none ⟨"", 1, 3⟩ "x")
    (.access none ⟨"", 1, 7⟩ "y")]) (originOf "${x + y}")

/-- The sum of a whole number of 401 digits and a floating-point number is neither given nor
reported. -/
theorem value_sum_overflow :
    parse "${x + y}" "" .initial interpretName = .ok (.ok sum) ∧
      (pair (.int (10 ^ 400)) (.float 0.5)).IsReliable ∧
      ∀ result, sum.value (some (pair (.int (10 ^ 400)) (.float 0.5))) ≠ .ok result := by
  refine ⟨by with_unfolding_all rfl, pair_isReliable _ _, fun result h => ?_⟩
  have hlarge : Binary64.OutOfReach (10 ^ 400) := by
    show 2 ^ 1024 - 2 ^ 970 ≤ Int.natAbs (10 ^ 400)
    decide +kernel
  have hsum : Evaluation.applyBinary .add (.int (10 ^ 400)) (.float 0.5) =
      .error (.fault .overflow) :=
    (Evaluation.applyBinary_eq_fault rfl).mpr ⟨rfl, _, _, rfl, rfl,
      .inl ⟨(Evaluation.arithmetic_eq_overflow rfl).mpr ⟨hlarge, by rintro (⟨⟨⟩⟩ | ⟨⟨⟩⟩)⟩, rfl⟩⟩
  have hfails : FailsIn (.ofContext (some (pair (.int (10 ^ 400)) (.float 0.5)))) sum.root
      (.fault .overflow) :=
    ⟨_, .step (.part .nil) (.self _),
      .operands rfl (evaluates_access _ _ (found_x _ _)) (evaluates_access _ _ (found_y _ _)) hsum⟩
  rw [value_eq_error.mpr hfails] at h
  cases h

end Expression

end Interpolation
