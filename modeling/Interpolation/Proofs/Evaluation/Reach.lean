/-
Where an evaluation fails.

* `ComesTo` — the kids of a node that are evaluated, one rule for each place;
* `FailsAt` — how a node fails of itself, its kids having come to the values it needs;
* `failsIn_lazy`, `failsIn_conditional`, … — the failures in a tree, by its root;
* `eval_failsWith` — an evaluation fails exactly as a node fails that it comes to.

Design notes: the rules stand beside those of `Evaluates`, and use them to say that what is
looked at before has a value.  A kid that is skipped has no rule, so its failure does not
count.  `FailsWith` goes with `Gives`: the one says what a computation fails with, the other
what it comes to, and together they open a computation in steps.
-/
import Interpolation.Proofs.Evaluation.Visits

namespace Interpolation.Evaluation

open Expression (Origin)
open Template (Node UnaryOp BinaryOp)

/-! ### The rules -/

/-- The evaluation of a node comes to a kid of it. -/
inductive ComesTo (scope : Scope) : Node Origin → Node Origin → Prop
  | part {p : Template.Pos} {before after : List (Node Origin)} {k : Node Origin}
      {values : List Value} {visits : List Visit}
      (hbefore : EvaluatesAll scope before values visits) :
      ComesTo scope (.output p (before ++ k :: after)) k
  | freeArgument {p : Template.Pos} {name : String} {before after : List (Node Origin)}
      {k : Node Origin} {f : ScopeFunction} {values : List Value} {visits : List Visit}
      (hf : scope.findFunction name = .ok f)
      (hbefore : EvaluatesAll scope before values visits) :
      ComesTo scope (.call none p name (before ++ k :: after)) k
  | ownedArgument {o : Origin} {p : Template.Pos} {name : String}
      {before after : List (Node Origin)} {k : Node Origin} {values : List Value}
      {visits : List Visit} (hbefore : EvaluatesAll scope before values visits) :
      ComesTo scope (.call (some o) p name (before ++ k :: after)) k
  | operand {p : Template.Pos} {op : UnaryOp} {operand : Node Origin} :
      ComesTo scope (.unary p op operand) operand
  | left {p : Template.Pos} {op : BinaryOp} {left right : Node Origin} :
      ComesTo scope (.binary p op left right) left
  | undecided {p : Template.Pos} {op : BinaryOp} {left right : Node Origin} {v : Value}
      {visits : List Visit} (hlazy : isLazy op = true) (hleft : Evaluates scope left v visits)
      (hgoes : firstDecides op v = .ok none) : ComesTo scope (.binary p op left right) right
  | right {p : Template.Pos} {op : BinaryOp} {left right : Node Origin} {v : Value}
      {visits : List Visit} (hstrict : isLazy op = false)
      (hleft : Evaluates scope left v visits) : ComesTo scope (.binary p op left right) right
  | condition {p : Template.Pos} {condition yes no : Node Origin} :
      ComesTo scope (.conditional p condition yes no) condition
  | yes {p : Template.Pos} {condition yes no : Node Origin} {v : Value} {visits : List Visit}
      (hcondition : Evaluates scope condition v visits) (hchoice : chooses v = .ok (some true)) :
      ComesTo scope (.conditional p condition yes no) yes
  | no {p : Template.Pos} {condition yes no : Node Origin} {v : Value} {visits : List Visit}
      (hcondition : Evaluates scope condition v visits)
      (hchoice : chooses v = .ok (some false)) :
      ComesTo scope (.conditional p condition yes no) no
  | target {p : Template.Pos} {target key : Node Origin} :
      ComesTo scope (.index p target key) target
  | key {p : Template.Pos} {target key : Node Origin} {v : Value} {visits : List Visit}
      (htarget : Evaluates scope target v visits) : ComesTo scope (.index p target key) key

/-- The evaluation of a tree comes to a node in it. -/
inductive Reaches (scope : Scope) : Node Origin → Node Origin → Prop
  | self (n : Node Origin) : Reaches scope n n
  | step {n k m : Node Origin} (hk : ComesTo scope n k) (hm : Reaches scope k m) :
      Reaches scope n m

/-- A node fails when its kids have come to the values that it looks at. -/
inductive FailsAt (scope : Scope) : Node Origin → Failure → Prop
  | bare {p : Template.Pos} {kids : List (Node Origin)} :
      FailsAt scope (.bare p kids) (.fault .abstractEvaluation)
  | output {p : Template.Pos} {parts : List (Node Origin)} {values : List Value}
      {visits : List Visit} {e : Failure} (hparts : EvaluatesAll scope parts values visits)
      (he : joinParts values = .error e) : FailsAt scope (.output p parts) e
  | freeAccess {p : Template.Pos} {name : String} {e : Failure}
      (he : lookupFree scope name = .error e) : FailsAt scope (.access none p name) e
  | noContext {o : Origin} {p : Template.Pos} {name : String} {e : Failure}
      (he : contextOf scope = .error e) : FailsAt scope (.access (some o) p name) e
  | brokenLookup {o : Origin} {p : Template.Pos} {name : String}
      {context : Option Config.Context} {f : Fault} (hcontext : contextOf scope = .ok context)
      (hf : (o.lookup p name).value context = .error (.fault f)) :
      FailsAt scope (.access (some o) p name) (.fault f)
  | erringLookup {o : Origin} {p : Template.Pos} {name : String}
      {context : Option Config.Context} {e : EvalError} (hcontext : contextOf scope = .ok context)
      (he : (o.lookup p name).value context = .error (.error e)) :
      FailsAt scope (.access (some o) p name) (.error e)
  | failedLookup {o : Origin} {p : Template.Pos} {name : String}
      {context : Option Config.Context} {found : Config.Result}
      (hcontext : contextOf scope = .ok context)
      (hfound : (o.lookup p name).value context = .ok found)
      (herror : Config.hasErrors found.diagnostics = true) :
      FailsAt scope (.access (some o) p name) (.diagnosed found.diagnostics)
  | unknownFunction {p : Template.Pos} {name : String} {arguments : List (Node Origin)}
      {e : Failure} (he : scope.findFunction name = .error e) :
      FailsAt scope (.call none p name arguments) e
  | freeCall {p : Template.Pos} {name : String} {arguments : List (Node Origin)}
      {f : ScopeFunction} {values : List Value} {visits : List Visit} {e : Failure}
      (hf : scope.findFunction name = .ok f)
      (harguments : EvaluatesAll scope arguments values visits)
      (he : callFree name f values = .error e) : FailsAt scope (.call none p name arguments) e
  | ownedCall {o : Origin} {p : Template.Pos} {name : String} {arguments : List (Node Origin)}
      {values : List Value} {visits : List Visit} {e : Failure}
      (harguments : EvaluatesAll scope arguments values visits)
      (he : callOwned scope o p name (arguments.map Node.pos) values = .error e) :
      FailsAt scope (.call (some o) p name arguments) e
  | unary {p : Template.Pos} {op : UnaryOp} {operand : Node Origin} {v : Value}
      {visits : List Visit} {e : Failure} (hoperand : Evaluates scope operand v visits)
      (he : applyUnary op v = .error e) : FailsAt scope (.unary p op operand) e
  | first {p : Template.Pos} {op : BinaryOp} {left right : Node Origin} {v : Value}
      {visits : List Visit} {e : Failure} (hlazy : isLazy op = true)
      (hleft : Evaluates scope left v visits) (he : firstDecides op v = .error e) :
      FailsAt scope (.binary p op left right) e
  | second {p : Template.Pos} {op : BinaryOp} {left right : Node Origin} {v w : Value}
      {visits others : List Visit} {e : Failure} (hlazy : isLazy op = true)
      (hleft : Evaluates scope left v visits) (hgoes : firstDecides op v = .ok none)
      (hright : Evaluates scope right w others) (he : secondDecides w = .error e) :
      FailsAt scope (.binary p op left right) e
  | operands {p : Template.Pos} {op : BinaryOp} {left right : Node Origin} {v w : Value}
      {visits others : List Visit} {e : Failure} (hstrict : isLazy op = false)
      (hleft : Evaluates scope left v visits) (hright : Evaluates scope right w others)
      (he : applyBinary op v w = .error e) : FailsAt scope (.binary p op left right) e
  | choice {p : Template.Pos} {condition yes no : Node Origin} {v : Value}
      {visits : List Visit} {e : Failure} (hcondition : Evaluates scope condition v visits)
      (he : chooses v = .error e) : FailsAt scope (.conditional p condition yes no) e
  | index {p : Template.Pos} {target key : Node Origin} {v w : Value}
      {visits others : List Visit} {e : Failure} (htarget : Evaluates scope target v visits)
      (hkey : Evaluates scope key w others) (he : applyIndex v w = .error e) :
      FailsAt scope (.index p target key) e

/-- A node fails that the evaluation of a tree comes to. -/
def FailsIn (scope : Scope) (n : Node Origin) (e : Failure) : Prop :=
  ∃ m, Reaches scope n m ∧ FailsAt scope m e

variable {scope : Scope}

theorem ComesTo.mem_kids {n k : Node Origin} (h : ComesTo scope n k) : k ∈ n.kids := by
  cases h <;> simp [Node.kids]

theorem Reaches.mem_subtrees {n m : Node Origin} (h : Reaches scope n m) : m ∈ n.subtrees := by
  induction h with
  | self n =>
    rw [Node.subtrees_eq]
    exact List.mem_cons_self
  | step hk _ ih =>
    rw [Node.subtrees_eq]
    exact List.mem_cons_of_mem _ (List.mem_flatMap.mpr ⟨_, hk.mem_kids, ih⟩)

/-- A failure in a tree is that of its root or one in a kid the evaluation comes to. -/
theorem failsIn_iff {n : Node Origin} {e : Failure} :
    FailsIn scope n e ↔ FailsAt scope n e ∨ ∃ k, ComesTo scope n k ∧ FailsIn scope k e := by
  constructor
  · rintro ⟨m, hm, he⟩
    cases hm with
    | self => exact .inl he
    | step hk hm => exact .inr ⟨_, hk, m, hm, he⟩
  · rintro (he | ⟨k, hk, m, hm, he⟩)
    · exact ⟨n, .self n, he⟩
    · exact ⟨m, .step hk hm, he⟩

/-- One of several trees fails, those before it having come to values. -/
def FailsAmong (scope : Scope) (nodes : List (Node Origin)) (e : Failure) : Prop :=
  ∃ before k after values visits,
    nodes = before ++ k :: after ∧ EvaluatesAll scope before values visits ∧ FailsIn scope k e

theorem not_failsAmong_nil {e : Failure} : ¬ FailsAmong scope [] e := by
  rintro ⟨before, k, after, values, visits, heq, -⟩
  cases before <;> cases heq

theorem failsAmong_cons {n : Node Origin} {rest : List (Node Origin)} {e : Failure} :
    FailsAmong scope (n :: rest) e ↔
      FailsIn scope n e ∨ ∃ v visits, Evaluates scope n v visits ∧ FailsAmong scope rest e := by
  constructor
  · rintro ⟨before, k, after, values, visits, heq, hbefore, he⟩
    cases hbefore with
    | nil =>
      cases heq
      exact .inl he
    | cons hv hbefore =>
      cases heq
      exact .inr ⟨_, _, hv, _, _, _, _, _, rfl, hbefore, he⟩
  · rintro (he | ⟨v, visits, hv, before, k, after, values, others, rfl, hbefore, he⟩)
    · exact ⟨[], n, rest, [], [], rfl, .nil, he⟩
    · exact ⟨n :: before, k, after, v :: values, visits ++ others, rfl, .cons hv hbefore, he⟩

/-! ### Failures in a tree by its root -/

section

variable {p : Template.Pos} {e : Failure}

theorem failsIn_bare {kids : List (Node Origin)} :
    FailsIn scope (.bare p kids) e ↔ e = .fault .abstractEvaluation := by
  rw [failsIn_iff]
  constructor
  · rintro (⟨⟨⟩⟩ | ⟨k, ⟨⟩, _⟩)
    rfl
  · rintro rfl
    exact .inl .bare

theorem not_failsIn_literal {value : Value} : ¬ FailsIn scope (.literal p value) e := by
  rw [failsIn_iff]
  rintro (⟨⟨⟩⟩ | ⟨k, ⟨⟩, _⟩)

/-- A name is a leaf, so it only fails of itself. -/
theorem failsIn_access {owner : Option Origin} {name : String} :
    FailsIn scope (.access owner p name) e ↔ FailsAt scope (.access owner p name) e := by
  have hleaf : ∀ k, ¬ ComesTo scope (.access owner p name) k := by rintro k ⟨⟩
  rw [failsIn_iff]
  simp [hleaf]

theorem failsAt_freeAccess {name : String} :
    FailsAt scope (.access none p name) e ↔ lookupFree scope name = .error e := by
  constructor
  · intro h
    cases h with
    | freeAccess he => exact he
  · exact .freeAccess

theorem failsAt_ownedAccess {o : Origin} {name : String} :
    FailsAt scope (.access (some o) p name) e ↔ contextOf scope = .error e ∨
      ∃ context, contextOf scope = .ok context ∧
        ((∃ f, (o.lookup p name).value context = .error f ∧ e = f.toFailure) ∨
          ∃ found, (o.lookup p name).value context = .ok found ∧
            Config.hasErrors found.diagnostics = true ∧ e = .diagnosed found.diagnostics) := by
  constructor
  · intro h
    cases h with
    | noContext he => exact .inl he
    | brokenLookup hcontext hf => exact .inr ⟨_, hcontext, .inl ⟨_, hf, rfl⟩⟩
    | erringLookup hcontext he => exact .inr ⟨_, hcontext, .inl ⟨_, he, rfl⟩⟩
    | failedLookup hcontext hfound herror =>
      exact .inr ⟨_, hcontext, .inr ⟨_, hfound, herror, rfl⟩⟩
  · rintro (he | ⟨context, hcontext, ⟨f, hf, rfl⟩ | ⟨found, hfound, herror, rfl⟩⟩)
    · exact .noContext he
    · cases f with
      | fault f => exact .brokenLookup hcontext hf
      | error e => exact .erringLookup hcontext hf
    · exact .failedLookup hcontext hfound herror

theorem failsIn_output {parts : List (Node Origin)} :
    FailsIn scope (.output p parts) e ↔ FailsAmong scope parts e ∨
      ∃ values visits, EvaluatesAll scope parts values visits ∧ joinParts values = .error e := by
  rw [failsIn_iff]
  constructor
  · rintro (he | ⟨k, hk, he⟩)
    · cases he with
      | output hparts he => exact .inr ⟨_, _, hparts, he⟩
    · cases hk with
      | part hbefore => exact .inl ⟨_, _, _, _, _, rfl, hbefore, he⟩
  · rintro (⟨before, k, after, values, visits, rfl, hbefore, he⟩ | ⟨values, visits, hparts, he⟩)
    · exact .inr ⟨k, .part hbefore, he⟩
    · exact .inl (.output hparts he)

theorem failsIn_freeCall {name : String} {arguments : List (Node Origin)} :
    FailsIn scope (.call none p name arguments) e ↔ scope.findFunction name = .error e ∨
      ∃ f, scope.findFunction name = .ok f ∧ (FailsAmong scope arguments e ∨
        ∃ values visits, EvaluatesAll scope arguments values visits ∧
          callFree name f values = .error e) := by
  rw [failsIn_iff]
  constructor
  · rintro (he | ⟨k, hk, he⟩)
    · cases he with
      | unknownFunction he => exact .inl he
      | freeCall hf hvalues he => exact .inr ⟨_, hf, .inr ⟨_, _, hvalues, he⟩⟩
    · cases hk with
      | freeArgument hf hbefore => exact .inr ⟨_, hf, .inl ⟨_, _, _, _, _, rfl, hbefore, he⟩⟩
  · rintro (he | ⟨f, hf, ⟨before, k, after, values, visits, rfl, hbefore, he⟩ |
      ⟨values, visits, hvalues, he⟩⟩)
    · exact .inl (.unknownFunction he)
    · exact .inr ⟨k, .freeArgument hf hbefore, he⟩
    · exact .inl (.freeCall hf hvalues he)

theorem failsIn_ownedCall {o : Origin} {name : String} {arguments : List (Node Origin)} :
    FailsIn scope (.call (some o) p name arguments) e ↔ FailsAmong scope arguments e ∨
      ∃ values visits, EvaluatesAll scope arguments values visits ∧
        callOwned scope o p name (arguments.map Node.pos) values = .error e := by
  rw [failsIn_iff]
  constructor
  · rintro (he | ⟨k, hk, he⟩)
    · cases he with
      | ownedCall hvalues he => exact .inr ⟨_, _, hvalues, he⟩
    · cases hk with
      | ownedArgument hbefore => exact .inl ⟨_, _, _, _, _, rfl, hbefore, he⟩
  · rintro (⟨before, k, after, values, visits, rfl, hbefore, he⟩ | ⟨values, visits, hvalues, he⟩)
    · exact .inr ⟨k, .ownedArgument hbefore, he⟩
    · exact .inl (.ownedCall hvalues he)

theorem failsIn_unary {op : UnaryOp} {operand : Node Origin} :
    FailsIn scope (.unary p op operand) e ↔ FailsIn scope operand e ∨
      ∃ v visits, Evaluates scope operand v visits ∧ applyUnary op v = .error e := by
  rw [failsIn_iff]
  constructor
  · rintro (he | ⟨k, hk, he⟩)
    · cases he with
      | unary hoperand he => exact .inr ⟨_, _, hoperand, he⟩
    · cases hk with
      | operand => exact .inl he
  · rintro (he | ⟨v, visits, hoperand, he⟩)
    · exact .inr ⟨operand, .operand, he⟩
    · exact .inl (.unary hoperand he)

/-- What is on the right counts only if what is on the left does not decide. -/
theorem failsIn_lazy {op : BinaryOp} (hlazy : isLazy op = true) {left right : Node Origin} :
    FailsIn scope (.binary p op left right) e ↔ FailsIn scope left e ∨
      ∃ v visits, Evaluates scope left v visits ∧ (firstDecides op v = .error e ∨
        ∃ decided, firstDecides op v = .ok decided ∧ decided = none ∧ (FailsIn scope right e ∨
          ∃ w others, Evaluates scope right w others ∧ secondDecides w = .error e)) := by
  rw [failsIn_iff]
  constructor
  · rintro (he | ⟨k, hk, he⟩)
    · cases he with
      | first _ hv he => exact .inr ⟨_, _, hv, .inl he⟩
      | second _ hv hgoes hw he =>
        exact .inr ⟨_, _, hv, .inr ⟨_, hgoes, rfl, .inr ⟨_, _, hw, he⟩⟩⟩
      | operands hstrict => cases hlazy.symm.trans hstrict
    · cases hk with
      | left => exact .inl he
      | undecided _ hv hgoes => exact .inr ⟨_, _, hv, .inr ⟨_, hgoes, rfl, .inl he⟩⟩
      | right hstrict => cases hlazy.symm.trans hstrict
  · rintro (he | ⟨v, visits, hv, he | ⟨_, hgoes, rfl, he | ⟨w, others, hw, he⟩⟩⟩)
    · exact .inr ⟨left, .left, he⟩
    · exact .inl (.first hlazy hv he)
    · exact .inr ⟨right, .undecided hlazy hv hgoes, he⟩
    · exact .inl (.second hlazy hv hgoes hw he)

theorem failsIn_strict {op : BinaryOp} (hstrict : isLazy op = false) {left right : Node Origin} :
    FailsIn scope (.binary p op left right) e ↔ FailsIn scope left e ∨
      ∃ v visits, Evaluates scope left v visits ∧ (FailsIn scope right e ∨
        ∃ w others, Evaluates scope right w others ∧ applyBinary op v w = .error e) := by
  rw [failsIn_iff]
  constructor
  · rintro (he | ⟨k, hk, he⟩)
    · cases he with
      | operands _ hv hw he => exact .inr ⟨_, _, hv, .inr ⟨_, _, hw, he⟩⟩
      | first hlazy | second hlazy => cases hstrict.symm.trans hlazy
    · cases hk with
      | left => exact .inl he
      | right _ hv => exact .inr ⟨_, _, hv, .inl he⟩
      | undecided hlazy => cases hstrict.symm.trans hlazy
  · rintro (he | ⟨v, visits, hv, he | ⟨w, others, hw, he⟩⟩)
    · exact .inr ⟨left, .left, he⟩
    · exact .inr ⟨right, .right hstrict hv, he⟩
    · exact .inl (.operands hstrict hv hw he)

/-- Of the two branches the chosen one counts. -/
theorem failsIn_conditional {condition yes no : Node Origin} :
    FailsIn scope (.conditional p condition yes no) e ↔ FailsIn scope condition e ∨
      ∃ v visits, Evaluates scope condition v visits ∧ (chooses v = .error e ∨
        ∃ choice, chooses v = .ok choice ∧ (choice = some true ∧ FailsIn scope yes e ∨
          choice = some false ∧ FailsIn scope no e)) := by
  rw [failsIn_iff]
  constructor
  · rintro (he | ⟨k, hk, he⟩)
    · cases he with
      | choice hv he => exact .inr ⟨_, _, hv, .inl he⟩
    · cases hk with
      | condition => exact .inl he
      | yes hv hchoice => exact .inr ⟨_, _, hv, .inr ⟨_, hchoice, .inl ⟨rfl, he⟩⟩⟩
      | no hv hchoice => exact .inr ⟨_, _, hv, .inr ⟨_, hchoice, .inr ⟨rfl, he⟩⟩⟩
  · rintro (he | ⟨v, visits, hv, he | ⟨_, hchoice, ⟨rfl, he⟩ | ⟨rfl, he⟩⟩⟩)
    · exact .inr ⟨condition, .condition, he⟩
    · exact .inl (.choice hv he)
    · exact .inr ⟨yes, .yes hv hchoice, he⟩
    · exact .inr ⟨no, .no hv hchoice, he⟩

theorem failsIn_index {target key : Node Origin} :
    FailsIn scope (.index p target key) e ↔ FailsIn scope target e ∨
      ∃ v visits, Evaluates scope target v visits ∧ (FailsIn scope key e ∨
        ∃ w others, Evaluates scope key w others ∧ applyIndex v w = .error e) := by
  rw [failsIn_iff]
  constructor
  · rintro (he | ⟨k, hk, he⟩)
    · cases he with
      | index hv hw he => exact .inr ⟨_, _, hv, .inr ⟨_, _, hw, he⟩⟩
    · cases hk with
      | target => exact .inl he
      | key hv => exact .inr ⟨_, _, hv, .inl he⟩
  · rintro (he | ⟨v, visits, hv, he | ⟨w, others, hw, he⟩⟩)
    · exact .inr ⟨target, .target, he⟩
    · exact .inr ⟨key, .key hv, he⟩
    · exact .inl (.index hv hw he)

end

/-! ### Failures of computations in steps -/

/-- The failures of an evaluation are those that have a property, whatever warnings it has
gathered before. -/
def FailsWith {α : Type} (m : Eval α) (E : Failure → Prop) : Prop :=
  ∀ ws e, m ws = .error e ↔ E e

namespace FailsWith

variable {α β : Type} {m : Eval α} {E E' : Failure → Prop} {R : α → List Visit → Prop}

theorem congr (h : FailsWith m E) (hiff : ∀ e, E e ↔ E' e) : FailsWith m E' := by
  intro ws e
  rw [h ws e, hiff e]

theorem ofExcept (r : Except Failure α) : FailsWith (Eval.ofExcept r) fun e => r = .error e := by
  intro ws e
  cases r <;> simp [Eval.ofExcept]

theorem pure (a : α) : FailsWith (Pure.pure a : Eval α) fun _ => False :=
  (ofExcept (.ok a)).congr fun e => by simp

theorem fail (e : Failure) : FailsWith (Eval.fail e : Eval α) fun e' => e' = e := by
  refine (ofExcept (.error e)).congr fun e' => ?_
  rw [Except.error.injEq]
  exact eq_comm

/-- Of two steps the first fails, or the second does after what the first has given. -/
theorem bind {f : α → Eval β} {F : α → Failure → Prop} (h : FailsWith m E) (hm : Gives m R)
    (hf : ∀ a, FailsWith (f a) (F a)) :
    FailsWith (m >>= f) fun e => E e ∨ ∃ a visits, R a visits ∧ F a e := by
  intro ws e
  rw [Eval.bind_apply]
  cases hr : m ws with
  | error e' =>
    have hnone : ∀ a visits, ¬ R a visits := fun a visits hR => by
      cases hr.symm.trans ((hm ws a _).mpr ⟨visits, hR, rfl⟩)
    have hE := h ws e
    rw [hr] at hE
    simp [Except.bind, ← hE, hnone]
  | ok r =>
    obtain ⟨a, ws'⟩ := r
    have hE : ¬ E e := fun hE => by cases hr.symm.trans ((h ws e).mpr hE)
    obtain ⟨visits, hR, -⟩ := (hm ws a ws').mp hr
    -- the second step can only go on from what the first one gave in this run
    have hsame : ∀ b others, R b others → b = a := fun b others hb => by
      cases hr.symm.trans ((hm ws b _).mpr ⟨others, hb, rfl⟩)
      rfl
    constructor
    · intro hfail
      exact .inr ⟨a, visits, hR, (hf a ws' e).mp hfail⟩
    · rintro (he | ⟨b, others, hb, hF⟩)
      · exact absurd he hE
      · obtain rfl := hsame b others hb
        exact (hf b ws' e).mpr hF

/-- The first of two steps looks nothing up. -/
theorem bind_ofExcept {r : Except Failure α} {f : α → Eval β} {F : α → Failure → Prop}
    (hf : ∀ a, FailsWith (f a) (F a)) :
    FailsWith (Eval.ofExcept r >>= f) fun e => r = .error e ∨ ∃ a, r = .ok a ∧ F a e :=
  ((ofExcept r).bind (.ofExcept r) hf).congr fun e => by simp

/-- The second of two steps looks nothing up. -/
theorem finish {f : α → Except Failure β} (h : FailsWith m E) (hm : Gives m R) :
    FailsWith (m >>= fun a => Eval.ofExcept (f a)) fun e =>
      E e ∨ ∃ a visits, R a visits ∧ f a = .error e :=
  h.bind hm fun a => ofExcept (f a)

end FailsWith

/-! ### Evaluation fails by the rules -/

theorem lookupOwned_failsWith (scope : Scope) (o : Origin) (p : Template.Pos) (name : String) :
    FailsWith (lookupOwned scope o p name) (FailsAt scope (.access (some o) p name)) := by
  unfold lookupOwned
  refine (FailsWith.bind_ofExcept fun context => ?_).congr fun e => failsAt_ownedAccess.symm
  cases hvalue : (o.lookup p name).value context with
  | error f => exact (FailsWith.fail _).congr fun e => by simp
  | ok found =>
    dsimp only
    split
    · next herror => exact (FailsWith.fail _).congr fun e => by simp [herror]
    · next hclean =>
      intro ws e
      constructor
      · rintro ⟨⟩
      · rintro (⟨f, hf, _⟩ | ⟨_, hfound, herror, _⟩)
        · cases hf
        · cases hfound
          exact absurd herror hclean

/-- Of several trees the first fails that does not come to a value. -/
theorem evalAll_failsWith {nodes : List (Node Origin)}
    (h : ∀ n ∈ nodes, FailsWith (eval scope n) (FailsIn scope n)) :
    FailsWith (evalAll scope nodes) (FailsAmong scope nodes) := by
  induction nodes with
  | nil =>
    rw [evalAll_nil]
    exact (FailsWith.pure _).congr fun e => by simp [not_failsAmong_nil]
  | cons n rest ih =>
    obtain ⟨hn, hrest⟩ := List.forall_mem_cons.mp h
    have hvalues := evalAll_gives fun k (_ : k ∈ rest) => eval_gives scope k
    rw [evalAll_cons]
    refine (hn.bind (eval_gives scope n) fun v =>
      (ih hrest).bind hvalues fun values => .pure (v :: values)).congr fun e => ?_
    simp [failsAmong_cons]

/-- **Evaluation fails by the rules.**  It fails exactly where a node fails that it comes to,
and with the failure of that node. -/
theorem eval_failsWith (scope : Scope) (n : Node Origin) :
    FailsWith (eval scope n) (FailsIn scope n) := by
  -- the steps of each case fail as the lemma about that root says
  have hall : ∀ {nodes : List (Node Origin)},
      Gives (evalAll scope nodes) (EvaluatesAll scope nodes) :=
    evalAll_gives fun k _ => eval_gives scope k
  induction n with
  | bare pos kids =>
    rw [eval]
    exact (FailsWith.fail _).congr fun e => failsIn_bare.symm
  | output pos parts ih =>
    rw [eval]
    exact ((evalAll_failsWith ih).finish hall).congr fun e => failsIn_output.symm
  | literal pos value =>
    rw [eval]
    exact (FailsWith.pure value).congr fun e => iff_of_false id not_failsIn_literal
  | access owner pos name =>
    cases owner with
    | none =>
      rw [eval]
      exact (FailsWith.ofExcept _).congr fun e =>
        (failsIn_access.trans failsAt_freeAccess).symm
    | some o =>
      rw [eval]
      exact (lookupOwned_failsWith scope o pos name).congr fun e => failsIn_access.symm
  | call owner pos function arguments ih =>
    cases owner with
    | none =>
      rw [eval]
      exact (FailsWith.bind_ofExcept fun f => (evalAll_failsWith ih).finish hall).congr
        fun e => failsIn_freeCall.symm
    | some o =>
      rw [eval]
      exact ((evalAll_failsWith ih).finish hall).congr fun e => failsIn_ownedCall.symm
  | unary pos op operand ih =>
    rw [eval]
    exact (ih.finish (eval_gives scope operand)).congr fun e => failsIn_unary.symm
  | binary pos op left right ihl ihr =>
    have hleft := eval_gives scope left
    have hright := eval_gives scope right
    rw [eval]
    cases hlazy : isLazy op with
    | true =>
      simp only [reduceIte]
      refine (ihl.bind hleft fun v => FailsWith.bind_ofExcept fun decided => ?_).congr
        fun e => (failsIn_lazy hlazy).symm
      cases decided with
      | none => exact (ihr.finish hright).congr fun e => by simp
      | some d => exact (FailsWith.pure d).congr fun e => by simp
    | false =>
      simp only [Bool.false_eq_true, reduceIte]
      exact (ihl.bind hleft fun v => ihr.finish hright).congr
        fun e => (failsIn_strict hlazy).symm
  | conditional pos condition yes no ihc ihy ihn =>
    rw [eval]
    refine (ihc.bind (eval_gives scope condition) fun v =>
      FailsWith.bind_ofExcept fun choice => ?_).congr fun e => failsIn_conditional.symm
    cases choice with
    | none => exact (FailsWith.pure _).congr fun e => by simp
    | some holds =>
      cases holds with
      | true => exact ihy.congr fun e => by simp
      | false => exact ihn.congr fun e => by simp
  | index pos target key iht ihk =>
    rw [eval]
    exact (iht.bind (eval_gives scope target) fun v => ihk.finish (eval_gives scope key)).congr
      fun e => failsIn_index.symm

end Interpolation.Evaluation
