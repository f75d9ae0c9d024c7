/-
Which variables an evaluation looks up, and in which order.

* `Evaluates` — the rules by which a tree comes to a value, with the look-ups that are
  made on the way;
* `Evaluates.unique` — a tree comes to one value, by one row of look-ups;
* `eval_gives` — evaluation succeeds exactly where the rules apply, and the warnings it
  gathers are those of the look-ups, in order.

Design notes: the rules say what is looked at before what.  The operators `&&` and `||`
have one rule for a first operand that decides and another for one that does not, and a
conditional has a rule for each branch, so what is skipped has no part in a rule.  Of a
look-up a visit keeps what it reported: nothing else of it is told to the outside.
-/
import Interpolation.Evaluation.Meaning
import Interpolation.Proofs.Evaluation.Computation

namespace Interpolation.Evaluation

open Config (Diagnostics)
open Expression (Origin)
open Template (Node UnaryOp BinaryOp)

/-- A look-up of a variable that was made, with the warnings it came with. -/
structure Visit where
  owner : Origin
  pos : Template.Pos
  name : String
  warnings : Diagnostics

/-- The warnings of look-ups, in the order in which they were made. -/
def warningsOf (visits : List Visit) : Diagnostics :=
  visits.flatMap Visit.warnings

@[simp] theorem warningsOf_nil : warningsOf [] = [] := rfl

theorem warningsOf_singleton (visit : Visit) : warningsOf [visit] = visit.warnings :=
  List.append_nil _

theorem warningsOf_append (first second : List Visit) :
    warningsOf (first ++ second) = warningsOf first ++ warningsOf second :=
  List.flatMap_append

/-! ### The rules -/

mutual

/-- How a tree comes to a value in a scope, and the look-ups made on the way. -/
inductive Evaluates (scope : Scope) : Node Origin → Value → List Visit → Prop
  | output {p : Template.Pos} {parts : List (Node Origin)} {values : List Value} {u : Value}
      {visits : List Visit} (hparts : EvaluatesAll scope parts values visits)
      (hu : joinParts values = .ok u) : Evaluates scope (.output p parts) u visits
  | literal {p : Template.Pos} {v : Value} : Evaluates scope (.literal p v) v []
  | freeAccess {p : Template.Pos} {name : String} {v : Value}
      (hv : lookupFree scope name = .ok v) : Evaluates scope (.access none p name) v []
  | ownedAccess {o : Origin} {p : Template.Pos} {name : String}
      {context : Option Config.Context} {found : Config.Result}
      (hcontext : contextOf scope = .ok context)
      (hfound : (o.lookup p name).value context = .ok found)
      (hclean : Config.hasErrors found.diagnostics = false) :
      Evaluates scope (.access (some o) p name) found.value.toTemplate
        [⟨o, p, name, found.diagnostics⟩]
  | freeCall {p : Template.Pos} {name : String} {arguments : List (Node Origin)}
      {f : ScopeFunction} {values : List Value} {u : Value} {visits : List Visit}
      (hf : scope.findFunction name = .ok f)
      (harguments : EvaluatesAll scope arguments values visits)
      (hu : callFree name f values = .ok u) : Evaluates scope (.call none p name arguments) u visits
  | ownedCall {o : Origin} {p : Template.Pos} {name : String} {arguments : List (Node Origin)}
      {values : List Value} {u : Value} {visits : List Visit}
      (harguments : EvaluatesAll scope arguments values visits)
      (hu : callOwned scope o p name (arguments.map Node.pos) values = .ok u) :
      Evaluates scope (.call (some o) p name arguments) u visits
  | unary {p : Template.Pos} {op : UnaryOp} {operand : Node Origin} {v u : Value}
      {visits : List Visit} (hoperand : Evaluates scope operand v visits)
      (hu : applyUnary op v = .ok u) : Evaluates scope (.unary p op operand) u visits
  /-- The first operand of `&&` or `||` decides, and the second is skipped. -/
  | decided {p : Template.Pos} {op : BinaryOp} {left right : Node Origin} {v u : Value}
      {visits : List Visit} (hlazy : isLazy op = true) (hleft : Evaluates scope left v visits)
      (hu : firstDecides op v = .ok (some u)) : Evaluates scope (.binary p op left right) u visits
  | undecided {p : Template.Pos} {op : BinaryOp} {left right : Node Origin} {v w u : Value}
      {first second : List Visit} (hlazy : isLazy op = true)
      (hleft : Evaluates scope left v first) (hgoes : firstDecides op v = .ok none)
      (hright : Evaluates scope right w second) (hu : secondDecides w = .ok u) :
      Evaluates scope (.binary p op left right) u (first ++ second)
  | operands {p : Template.Pos} {op : BinaryOp} {left right : Node Origin} {v w u : Value}
      {first second : List Visit} (hstrict : isLazy op = false)
      (hleft : Evaluates scope left v first) (hright : Evaluates scope right w second)
      (hu : applyBinary op v w = .ok u) :
      Evaluates scope (.binary p op left right) u (first ++ second)
  /-- The condition is not known yet, and both branches are skipped. -/
  | neither {p : Template.Pos} {condition yes no : Node Origin} {v : Value}
      {visits : List Visit} (hcondition : Evaluates scope condition v visits)
      (hchoice : chooses v = .ok none) :
      Evaluates scope (.conditional p condition yes no) .unknown visits
  | yes {p : Template.Pos} {condition yes no : Node Origin} {v u : Value}
      {first second : List Visit} (hcondition : Evaluates scope condition v first)
      (hchoice : chooses v = .ok (some true)) (hbranch : Evaluates scope yes u second) :
      Evaluates scope (.conditional p condition yes no) u (first ++ second)
  | no {p : Template.Pos} {condition yes no : Node Origin} {v u : Value}
      {first second : List Visit} (hcondition : Evaluates scope condition v first)
      (hchoice : chooses v = .ok (some false)) (hbranch : Evaluates scope no u second) :
      Evaluates scope (.conditional p condition yes no) u (first ++ second)
  | index {p : Template.Pos} {target key : Node Origin} {v w u : Value}
      {first second : List Visit} (htarget : Evaluates scope target v first)
      (hkey : Evaluates scope key w second) (hu : applyIndex v w = .ok u) :
      Evaluates scope (.index p target key) u (first ++ second)

/-- How trees come to their values from left to right. -/
inductive EvaluatesAll (scope : Scope) : List (Node Origin) → List Value → List Visit → Prop
  | nil : EvaluatesAll scope [] [] []
  | cons {n : Node Origin} {rest : List (Node Origin)} {v : Value} {values : List Value}
      {first others : List Visit} (hn : Evaluates scope n v first)
      (hrest : EvaluatesAll scope rest values others) :
      EvaluatesAll scope (n :: rest) (v :: values) (first ++ others)

end

variable {scope : Scope}

theorem EvaluatesAll.unique {nodes : List (Node Origin)}
    (hunique : ∀ n ∈ nodes, ∀ {v v' : Value} {visits visits' : List Visit},
      Evaluates scope n v visits → Evaluates scope n v' visits' → v = v' ∧ visits = visits')
    {values values' : List Value} {visits visits' : List Visit}
    (h : EvaluatesAll scope nodes values visits) (h' : EvaluatesAll scope nodes values' visits') :
    values = values' ∧ visits = visits' := by
  induction nodes generalizing values values' visits visits' with
  | nil =>
    cases h
    cases h'
    exact ⟨rfl, rfl⟩
  | cons n rest ih =>
    obtain ⟨hn, hothers⟩ := List.forall_mem_cons.mp hunique
    cases h with
    | cons hv hvalues =>
      cases h' with
      | cons hv' hvalues' =>
        obtain ⟨rfl, rfl⟩ := hn hv hv'
        obtain ⟨rfl, rfl⟩ := ih hothers hvalues hvalues'
        exact ⟨rfl, rfl⟩

/-- **The rules leave no choice**: a tree comes to one value, by one row of look-ups. -/
theorem Evaluates.unique {n : Node Origin} {v v' : Value} {visits visits' : List Visit}
    (h : Evaluates scope n v visits) (h' : Evaluates scope n v' visits') :
    v = v' ∧ visits = visits' := by
  have hsame : ∀ {r : Except Failure Value} {u u' : Value}, r = .ok u → r = .ok u' → u = u' :=
    fun hu hu' => Except.ok.inj (hu.symm.trans hu')
  induction n generalizing v v' visits visits' with
  | bare pos kids => cases h
  | output pos parts ih =>
    cases h with
    | output hparts hu =>
      cases h' with
      | output hparts' hu' =>
        obtain ⟨rfl, rfl⟩ := EvaluatesAll.unique ih hparts hparts'
        exact ⟨hsame hu hu', rfl⟩
  | literal pos value =>
    cases h
    cases h'
    exact ⟨rfl, rfl⟩
  | access owner pos name =>
    cases h with
    | freeAccess hv =>
      cases h' with
      | freeAccess hv' => exact ⟨hsame hv hv', rfl⟩
    | ownedAccess hcontext hfound _ =>
      cases h' with
      | ownedAccess hcontext' hfound' _ =>
        cases hcontext.symm.trans hcontext'
        cases hfound.symm.trans hfound'
        exact ⟨rfl, rfl⟩
  | call owner pos function arguments ih =>
    cases h with
    | freeCall hf harguments hu =>
      cases h' with
      | freeCall hf' harguments' hu' =>
        cases hf.symm.trans hf'
        obtain ⟨rfl, rfl⟩ := EvaluatesAll.unique ih harguments harguments'
        exact ⟨hsame hu hu', rfl⟩
    | ownedCall harguments hu =>
      cases h' with
      | ownedCall harguments' hu' =>
        obtain ⟨rfl, rfl⟩ := EvaluatesAll.unique ih harguments harguments'
        exact ⟨hsame hu hu', rfl⟩
  | unary pos op operand ih =>
    cases h with
    | unary hoperand hu =>
      cases h' with
      | unary hoperand' hu' =>
        obtain ⟨rfl, rfl⟩ := ih hoperand hoperand'
        exact ⟨hsame hu hu', rfl⟩
  | binary pos op left right ihl ihr =>
    cases h with
    | decided hlazy hleft hu =>
      cases h' with
      | decided _ hleft' hu' =>
        obtain ⟨rfl, rfl⟩ := ihl hleft hleft'
        cases hu.symm.trans hu'
        exact ⟨rfl, rfl⟩
      | undecided _ hleft' hgoes _ _ =>
        obtain ⟨rfl, rfl⟩ := ihl hleft hleft'
        cases hu.symm.trans hgoes
      | operands hstrict => cases hlazy.symm.trans hstrict
    | undecided hlazy hleft hgoes hright hu =>
      cases h' with
      | decided _ hleft' hu' =>
        obtain ⟨rfl, rfl⟩ := ihl hleft hleft'
        cases hgoes.symm.trans hu'
      | undecided _ hleft' _ hright' hu' =>
        obtain ⟨rfl, rfl⟩ := ihl hleft hleft'
        obtain ⟨rfl, rfl⟩ := ihr hright hright'
        exact ⟨hsame hu hu', rfl⟩
      | operands hstrict => cases hlazy.symm.trans hstrict
    | operands hstrict hleft hright hu =>
      cases h' with
      | decided hlazy | undecided hlazy => cases hlazy.symm.trans hstrict
      | operands _ hleft' hright' hu' =>
        obtain ⟨rfl, rfl⟩ := ihl hleft hleft'
        obtain ⟨rfl, rfl⟩ := ihr hright hright'
        exact ⟨hsame hu hu', rfl⟩
  | conditional pos condition yes no ihc ihy ihn =>
    -- the choice is the same both times
    cases h with
    | neither hcondition hchoice =>
      cases h' with
      | neither hcondition' _ =>
        obtain ⟨rfl, rfl⟩ := ihc hcondition hcondition'
        exact ⟨rfl, rfl⟩
      | yes hcondition' hchoice' | no hcondition' hchoice' =>
        obtain ⟨rfl, rfl⟩ := ihc hcondition hcondition'
        cases hchoice.symm.trans hchoice'
    | yes hcondition hchoice hbranch =>
      cases h' with
      | yes hcondition' _ hbranch' =>
        obtain ⟨rfl, rfl⟩ := ihc hcondition hcondition'
        obtain ⟨rfl, rfl⟩ := ihy hbranch hbranch'
        exact ⟨rfl, rfl⟩
      | neither hcondition' hchoice' | no hcondition' hchoice' =>
        obtain ⟨rfl, rfl⟩ := ihc hcondition hcondition'
        cases hchoice.symm.trans hchoice'
    | no hcondition hchoice hbranch =>
      cases h' with
      | no hcondition' _ hbranch' =>
        obtain ⟨rfl, rfl⟩ := ihc hcondition hcondition'
        obtain ⟨rfl, rfl⟩ := ihn hbranch hbranch'
        exact ⟨rfl, rfl⟩
      | neither hcondition' hchoice' | yes hcondition' hchoice' =>
        obtain ⟨rfl, rfl⟩ := ihc hcondition hcondition'
        cases hchoice.symm.trans hchoice'
  | index pos target key iht ihk =>
    cases h with
    | index htarget hkey hu =>
      cases h' with
      | index htarget' hkey' hu' =>
        obtain ⟨rfl, rfl⟩ := iht htarget htarget'
        obtain ⟨rfl, rfl⟩ := ihk hkey hkey'
        exact ⟨hsame hu hu', rfl⟩

/-! ### Evaluation follows the rules -/

/-- An evaluation succeeds exactly as a relation says, and the warnings it gathers are
those of the look-ups that go with its result. -/
def Gives {α : Type} (m : Eval α) (R : α → List Visit → Prop) : Prop :=
  ∀ ws a ws', m ws = .ok (a, ws') ↔ ∃ visits, R a visits ∧ ws' = ws ++ warningsOf visits

namespace Gives

variable {α β : Type} {m : Eval α} {R R' : α → List Visit → Prop}

theorem congr (h : Gives m R) (hiff : ∀ a visits, R a visits ↔ R' a visits) : Gives m R' := by
  intro ws a ws'
  rw [h ws a ws']
  simp only [hiff]

theorem ofExcept (r : Except Failure α) :
    Gives (Eval.ofExcept r) fun a visits => r = .ok a ∧ visits = [] := by
  intro ws a ws'
  cases r with
  | error e => simp [Eval.ofExcept]
  | ok b =>
    constructor
    · rintro ⟨⟩
      exact ⟨[], ⟨rfl, rfl⟩, (List.append_nil ws).symm⟩
    · rintro ⟨_, ⟨⟨⟩, rfl⟩, rfl⟩
      rw [warningsOf_nil, List.append_nil]
      rfl

theorem pure (b : α) : Gives (Pure.pure b : Eval α) fun a visits => a = b ∧ visits = [] :=
  (ofExcept (.ok b)).congr fun a visits => by simp [eq_comm]

theorem fail (e : Failure) : Gives (Eval.fail e : Eval α) fun _ _ => False :=
  (ofExcept (.error e)).congr fun a visits => by simp

/-- What is looked up in two steps is looked up in the first and then in the second. -/
theorem bind {f : α → Eval β} {S : α → β → List Visit → Prop} (h : Gives m R)
    (hf : ∀ a, Gives (f a) (S a)) :
    Gives (m >>= f) fun b visits =>
      ∃ a first second, R a first ∧ S a b second ∧ visits = first ++ second := by
  intro ws b ws'
  rw [Eval.bind_apply]
  constructor
  · intro hb
    obtain ⟨⟨a, middle⟩, ha, hb⟩ := bind_eq_ok.mp hb
    obtain ⟨first, hR, rfl⟩ := (h ws a middle).mp ha
    obtain ⟨second, hS, rfl⟩ := (hf a _ b ws').mp hb
    exact ⟨_, ⟨a, first, second, hR, hS, rfl⟩, by rw [warningsOf_append, List.append_assoc]⟩
  · rintro ⟨_, ⟨a, first, second, hR, hS, rfl⟩, rfl⟩
    refine bind_eq_ok.mpr ⟨(a, ws ++ warningsOf first), (h _ _ _).mpr ⟨first, hR, rfl⟩, ?_⟩
    refine (hf a _ b _).mpr ⟨second, hS, ?_⟩
    rw [warningsOf_append, List.append_assoc]

/-- The first of two steps looks nothing up. -/
theorem bind_ofExcept {r : Except Failure α} {f : α → Eval β} {S : α → β → List Visit → Prop}
    (hf : ∀ a, Gives (f a) (S a)) :
    Gives (Eval.ofExcept r >>= f) fun b visits => ∃ a, r = .ok a ∧ S a b visits := by
  refine ((ofExcept r).bind hf).congr fun b visits => ?_
  constructor
  · rintro ⟨a, _, second, ⟨hr, rfl⟩, hS, rfl⟩
    exact ⟨a, hr, hS⟩
  · rintro ⟨a, hr, hS⟩
    exact ⟨a, [], visits, ⟨hr, rfl⟩, hS, rfl⟩

/-- The second of two steps looks nothing up. -/
theorem finish {f : α → Except Failure β} (h : Gives m R) :
    Gives (m >>= fun a => Eval.ofExcept (f a)) fun b visits =>
      ∃ a, R a visits ∧ f a = .ok b := by
  refine (h.bind fun a => ofExcept (f a)).congr fun b visits => ?_
  constructor
  · rintro ⟨a, first, _, hR, ⟨hb, rfl⟩, rfl⟩
    exact ⟨a, (List.append_nil first).symm ▸ hR, hb⟩
  · rintro ⟨a, hR, hb⟩
    exact ⟨a, visits, [], hR, ⟨hb, rfl⟩, (List.append_nil visits).symm⟩

end Gives

theorem lookupOwned_gives (scope : Scope) (o : Origin) (p : Template.Pos) (name : String) :
    Gives (lookupOwned scope o p name) (Evaluates scope (.access (some o) p name)) := by
  unfold lookupOwned
  refine (Gives.bind_ofExcept (S := fun context v visits => ∃ found,
    (o.lookup p name).value context = .ok found ∧ Config.hasErrors found.diagnostics = false ∧
      v = found.value.toTemplate ∧ visits = [⟨o, p, name, found.diagnostics⟩])
    fun context => ?_).congr fun v visits => ?_
  · cases hvalue : (o.lookup p name).value context with
    | error f => exact (Gives.fail _).congr fun v visits => by simp
    | ok found =>
      dsimp only
      split
      · next herror => exact (Gives.fail _).congr fun v visits => by simp [herror]
      · next hclean =>
        intro ws v ws'
        constructor
        · rintro ⟨⟩
          refine ⟨_, ⟨found, rfl, by simpa using hclean, rfl, rfl⟩, ?_⟩
          rw [warningsOf_singleton]
        · rintro ⟨_, ⟨_, ⟨⟩, _, rfl, rfl⟩, rfl⟩
          rw [warningsOf_singleton]
          rfl
  · constructor
    · rintro ⟨context, hcontext, found, hfound, hclean, rfl, rfl⟩
      exact .ownedAccess hcontext hfound hclean
    · intro h
      cases h with
      | ownedAccess hcontext hfound hclean => exact ⟨_, hcontext, _, hfound, hclean, rfl, rfl⟩

theorem evalAll_gives {nodes : List (Node Origin)}
    (h : ∀ n ∈ nodes, Gives (eval scope n) (Evaluates scope n)) :
    Gives (evalAll scope nodes) (EvaluatesAll scope nodes) := by
  induction nodes with
  | nil =>
    rw [evalAll_nil]
    refine (Gives.pure []).congr fun values visits => ?_
    constructor
    · rintro ⟨rfl, rfl⟩
      exact .nil
    · rintro ⟨⟩
      exact ⟨rfl, rfl⟩
  | cons n rest ih =>
    obtain ⟨hn, hrest⟩ := List.forall_mem_cons.mp h
    rw [evalAll_cons]
    refine (hn.bind fun v => (ih hrest).bind fun values => .pure (v :: values)).congr
      fun all visits => ?_
    constructor
    · rintro ⟨v, first, _, hv, ⟨values, others, _, hvalues, ⟨rfl, rfl⟩, rfl⟩, rfl⟩
      rw [List.append_nil]
      exact .cons hv hvalues
    · intro h
      cases h with
      | cons hv hvalues =>
        exact ⟨_, _, _, hv, ⟨_, _, [], hvalues, ⟨rfl, rfl⟩, (List.append_nil _).symm⟩, rfl⟩

/-- **Evaluation follows the rules.** It succeeds exactly where they apply, with the value
they give, and the warnings it gathers are those of the look-ups, in order. -/
theorem eval_gives (scope : Scope) (n : Node Origin) :
    Gives (eval scope n) (Evaluates scope n) := by
  induction n with
  | bare pos kids =>
    rw [eval]
    refine (Gives.fail _).congr fun u visits => ⟨False.elim, ?_⟩
    rintro ⟨⟩
  | output pos parts ih =>
    rw [eval]
    refine (evalAll_gives ih).finish.congr fun u visits => ?_
    constructor
    · rintro ⟨values, hparts, hu⟩
      exact .output hparts hu
    · intro h
      cases h with
      | output hparts hu => exact ⟨_, hparts, hu⟩
  | literal pos value =>
    rw [eval]
    refine (Gives.pure value).congr fun u visits => ?_
    constructor
    · rintro ⟨rfl, rfl⟩
      exact .literal
    · rintro ⟨⟩
      exact ⟨rfl, rfl⟩
  | access owner pos name =>
    cases owner with
    | none =>
      rw [eval]
      refine (Gives.ofExcept _).congr fun u visits => ?_
      constructor
      · rintro ⟨hv, rfl⟩
        exact .freeAccess hv
      · intro h
        cases h with
        | freeAccess hv => exact ⟨hv, rfl⟩
    | some o =>
      rw [eval]
      exact lookupOwned_gives scope o pos name
  | call owner pos function arguments ih =>
    cases owner with
    | none =>
      rw [eval]
      refine (Gives.bind_ofExcept fun f => (evalAll_gives ih).finish).congr fun u visits => ?_
      constructor
      · rintro ⟨f, hf, values, harguments, hu⟩
        exact .freeCall hf harguments hu
      · intro h
        cases h with
        | freeCall hf harguments hu => exact ⟨_, hf, _, harguments, hu⟩
    | some o =>
      rw [eval]
      refine (evalAll_gives ih).finish.congr fun u visits => ?_
      constructor
      · rintro ⟨values, harguments, hu⟩
        exact .ownedCall harguments hu
      · intro h
        cases h with
        | ownedCall harguments hu => exact ⟨_, harguments, hu⟩
  | unary pos op operand ih =>
    rw [eval]
    refine ih.finish.congr fun u visits => ?_
    constructor
    · rintro ⟨v, hoperand, hu⟩
      exact .unary hoperand hu
    · intro h
      cases h with
      | unary hoperand hu => exact ⟨_, hoperand, hu⟩
  | binary pos op left right ihl ihr =>
    rw [eval]
    cases hlazy : isLazy op with
    | true =>
      simp only [reduceIte]
      refine (ihl.bind fun v => Gives.bind_ofExcept (S := fun decided u visits =>
        decided = some u ∧ visits = [] ∨
          decided = none ∧ ∃ w, Evaluates scope right w visits ∧ secondDecides w = .ok u)
        fun decided => ?_).congr fun u visits => ?_
      · cases decided with
        | none => exact ihr.finish.congr fun u visits => by simp
        | some d => exact (Gives.pure d).congr fun u visits => by simp [eq_comm]
      · constructor
        · rintro ⟨v, first, second, hleft, ⟨_, hd, ⟨rfl, rfl⟩ | ⟨rfl, w, hright, hu⟩⟩, rfl⟩
          · rw [List.append_nil]
            exact .decided hlazy hleft hd
          · exact .undecided hlazy hleft hd hright hu
        · intro h
          cases h with
          | decided _ hleft hu =>
            exact ⟨_, _, [], hleft, ⟨_, hu, .inl ⟨rfl, rfl⟩⟩, (List.append_nil _).symm⟩
          | undecided _ hleft hgoes hright hu =>
            exact ⟨_, _, _, hleft, ⟨_, hgoes, .inr ⟨rfl, _, hright, hu⟩⟩, rfl⟩
          | operands hstrict => simp [hlazy] at hstrict
    | false =>
      simp only [Bool.false_eq_true, reduceIte]
      refine (ihl.bind fun v => ihr.finish).congr fun u visits => ?_
      constructor
      · rintro ⟨v, first, second, hleft, ⟨w, hright, hu⟩, rfl⟩
        exact .operands hlazy hleft hright hu
      · intro h
        cases h with
        | operands _ hleft hright hu => exact ⟨_, _, _, hleft, ⟨_, hright, hu⟩, rfl⟩
        | decided h _ _ | undecided h _ _ _ _ => simp [hlazy] at h
  | conditional pos condition yes no ihc ihy ihn =>
    rw [eval]
    refine (ihc.bind fun v => Gives.bind_ofExcept (S := fun choice u visits =>
      choice = none ∧ u = .unknown ∧ visits = [] ∨
        choice = some true ∧ Evaluates scope yes u visits ∨
          choice = some false ∧ Evaluates scope no u visits)
      fun choice => ?_).congr fun u visits => ?_
    · match choice with
      | none => exact (Gives.pure _).congr fun u visits => by simp
      | some true => exact ihy.congr fun u visits => by simp
      | some false => exact ihn.congr fun u visits => by simp
    · constructor
      · rintro ⟨v, first, second, hcondition, ⟨_, hchoice, ⟨rfl, rfl, rfl⟩ | ⟨rfl, hbranch⟩ |
          ⟨rfl, hbranch⟩⟩, rfl⟩
        · rw [List.append_nil]
          exact .neither hcondition hchoice
        · exact .yes hcondition hchoice hbranch
        · exact .no hcondition hchoice hbranch
      · intro h
        cases h with
        | neither hcondition hchoice =>
          exact ⟨_, _, [], hcondition, ⟨_, hchoice, .inl ⟨rfl, rfl, rfl⟩⟩,
            (List.append_nil _).symm⟩
        | yes hcondition hchoice hbranch =>
          exact ⟨_, _, _, hcondition, ⟨_, hchoice, .inr (.inl ⟨rfl, hbranch⟩)⟩, rfl⟩
        | no hcondition hchoice hbranch =>
          exact ⟨_, _, _, hcondition, ⟨_, hchoice, .inr (.inr ⟨rfl, hbranch⟩)⟩, rfl⟩
  | index pos target key iht ihk =>
    rw [eval]
    refine (iht.bind fun v => ihk.finish).congr fun u visits => ?_
    constructor
    · rintro ⟨v, first, second, htarget, ⟨w, hkey, hu⟩, rfl⟩
      exact .index htarget hkey hu
    · intro h
      cases h with
      | index htarget hkey hu => exact ⟨_, _, _, htarget, ⟨_, hkey, hu⟩, rfl⟩

end Interpolation.Evaluation
