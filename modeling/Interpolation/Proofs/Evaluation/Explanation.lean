/-
Where an evaluation ends in an explanation.

* `CallExplains`, `LookupExplains` — how a call or a look-up comes to an explanation of why
  it fails;
* `FailsAt.cases` — a node that fails has one thing to say at most, or says what a look-up
  reported, or passes on an explanation;
* `failsIn_explained_iff` — an evaluation ends in an explanation exactly if it comes to a
  call or a look-up that gives it.

Design notes: functions and interpretations of names are given from outside, and nothing is
asked of the diagnostics by which they explain a failure.  So all that is known of a failed
evaluation depends on where its diagnostics come from, and this is the place where the
sources of diagnostics are told apart.
-/
import Interpolation.Proofs.Evaluation.Failure
import Interpolation.Proofs.Evaluation.Names
import Interpolation.Proofs.Evaluation.Reach

namespace Interpolation.Evaluation

open Config (Diagnostics)
open Expression (Origin)
open Template (Node)

/-! ### Explanations -/

/-- A call passes its arguments to a function, which explains why it fails. -/
inductive CallExplains (scope : Scope) : Node Origin → Diagnostics → Prop
  | free {p : Template.Pos} {name : String} {arguments : List (Node Origin)}
      {f : ScopeFunction} {values : List Value} {visits : List Visit} {ds : Diagnostics}
      (hf : scope.findFunction name = .ok f)
      (harguments : EvaluatesAll scope arguments values visits)
      (haccepts : f.accepts values.length = true)
      (hknown : values.any Value.isUnknown = false)
      (hcall : f.call values = .error (.explained ds)) :
      CallExplains scope (.call none p name arguments) ds
  | owned {o : Origin} {p : Template.Pos} {name : String} {arguments : List (Node Origin)}
      {c : Config.Context} {f : Function} {values : List Value} {visits : List Visit}
      {ds : Diagnostics} (hcontext : contextOf scope = .ok (some c))
      (hf : c.lookupFunction name = some f)
      (harguments : EvaluatesAll scope arguments values visits)
      (haccepts : f.accepts values.length = true)
      (hsettled : values.all Value.isSettled = true)
      (hcall : f.call (values.map Value.toConfig) = .error (.explained ds)) :
      CallExplains scope (.call (some o) p name arguments) ds

/-- The interpretation of a name explains why it fails. -/
inductive LookupExplains (scope : Scope) : Node Origin → Diagnostics → Prop
  | owned {o : Origin} {p : Template.Pos} {name : String} {context : Option Config.Context}
      {ds : Diagnostics} (hcontext : contextOf scope = .ok context)
      (hvalue : (o.lookup p name).value context = .error (.error (.explained ds))) :
      LookupExplains scope (.access (some o) p name) ds

/-- The evaluation of a tree comes to a call that ends in an explanation. -/
def CallExplainsIn (scope : Scope) (n : Node Origin) (ds : Diagnostics) : Prop :=
  ∃ m, Reaches scope n m ∧ CallExplains scope m ds

/-- The evaluation of a tree comes to a call or a look-up that ends in an explanation. -/
def ExplainedIn (scope : Scope) (n : Node Origin) (ds : Diagnostics) : Prop :=
  ∃ m, Reaches scope n m ∧ (CallExplains scope m ds ∨ LookupExplains scope m ds)

variable {scope : Scope} {m n : Node Origin} {ds : Diagnostics} {e : Failure}

theorem CallExplainsIn.explainedIn (h : CallExplainsIn scope n ds) : ExplainedIn scope n ds := by
  obtain ⟨m, hm, hcall⟩ := h
  exact ⟨m, hm, .inl hcall⟩

theorem CallExplains.failsAt (h : CallExplains scope m ds) :
    FailsAt scope m (.error (.explained ds)) := by
  cases h with
  | free hf harguments haccepts hknown hcall =>
    refine .freeCall hf harguments ?_
    simp [callFree, haccepts, hknown, hcall]
  | owned hcontext hf harguments haccepts hsettled hcall =>
    refine .ownedCall harguments ?_
    simp [callOwned_of_lookup hcontext hf, haccepts, hsettled, hcall]

theorem LookupExplains.failsAt (h : LookupExplains scope m ds) :
    FailsAt scope m (.error (.explained ds)) := by
  cases h with
  | owned hcontext hvalue => exact .erringLookup hcontext hvalue

/-! ### What nodes fail with -/

theorem callFree_cases {name : String} {f : ScopeFunction} {values : List Value}
    (h : callFree name f values = .error e) :
    e.IsSingle ∨ ∃ ds, e = .error (.explained ds) ∧ f.accepts values.length = true ∧
      values.any Value.isUnknown = false ∧ f.call values = .error (.explained ds) := by
  unfold callFree at h
  split at h
  · cases h
    exact .inl trivial
  · next haccepts =>
    split at h
    · cases h
    · next hknown =>
      split at h
      · cases h
      · cases h
        exact .inl trivial
      · cases h
        exact .inl trivial
      · next hcall =>
        cases h
        exact .inr ⟨_, rfl, by simpa using haccepts, by simpa using hknown, hcall⟩
      · cases h
        exact .inl trivial

theorem callOwned_cases {o : Origin} {p : Template.Pos} {name : String}
    {places : List Template.Pos} {values : List Value}
    (h : callOwned scope o p name places values = .error e) :
    e.IsSingle ∨ ∃ ds c f, e = .error (.explained ds) ∧ contextOf scope = .ok (some c) ∧
      c.lookupFunction name = some f ∧ f.accepts values.length = true ∧
      values.all Value.isSettled = true ∧
      f.call (values.map Value.toConfig) = .error (.explained ds) := by
  -- the checks in the order in which they are made, each with a report of its own
  cases hcontext : contextOf scope with
  | error failure =>
    unfold callOwned at h
    rw [hcontext] at h
    cases h
    exact .inl (contextOf_fails scope e hcontext).isOwn.isSingle
  | ok context =>
    cases context with
    | none =>
      unfold callOwned at h
      rw [hcontext] at h
      cases h
      exact .inl ⟨_, _, _, rfl⟩
    | some c =>
      cases hf : c.lookupFunction name with
      | none =>
        cases (callOwned_of_no_function hcontext hf).symm.trans h
        exact .inl ⟨_, _, _, rfl⟩
      | some f =>
        rw [callOwned_of_lookup hcontext hf] at h
        split at h
        · cases h
          exact .inl ⟨_, _, _, rfl⟩
        · next haccepts =>
          split at h
          · cases h
          · next hsettled =>
            split at h
            · cases h
            · cases h
              exact .inl (refusal_isSingle ..)
            · cases h
              exact .inl trivial
            · next hcall =>
              cases h
              exact .inr ⟨_, c, f, rfl, rfl, hf, by simpa using haccepts,
                by simpa using hsettled, hcall⟩
            · cases h
              exact .inl trivial

/-- A look-up reports errors with the value it gives. -/
def LookupReports (scope : Scope) (n : Node Origin) (ds : Diagnostics) : Prop :=
  ∃ o p name context found, n = .access (some o) p name ∧ contextOf scope = .ok context ∧
    (o.lookup p name).value context = .ok found ∧ Config.hasErrors found.diagnostics = true ∧
    ds = found.diagnostics

/-- **What a node has to say that fails** is one thing at most, or what a look-up reports, or
the explanation of a call or a look-up. -/
theorem FailsAt.cases (h : FailsAt scope m e) :
    e.IsSingle ∨ (∃ ds, e = .diagnosed ds ∧ LookupReports scope m ds) ∨
      ∃ ds, e = .error (.explained ds) ∧ (CallExplains scope m ds ∨ LookupExplains scope m ds) := by
  cases h with
  | bare => exact .inl trivial
  | output _ he => exact .inl (joinParts_fails _ _ he).isOwn.isSingle
  | freeAccess he => exact .inl (lookupFree_fails _ _ _ he).isOwn.isSingle
  | noContext he => exact .inl (contextOf_fails _ _ he).isOwn.isSingle
  | brokenLookup => exact .inl trivial
  -- an interpretation of names may raise any error, and only an explanation says more
  | @erringLookup _ _ _ _ e hcontext hvalue =>
    rcases Failure.isOwn_or_explained e with hown | ⟨ds, rfl⟩
    · exact .inl hown.isSingle
    · exact .inr (.inr ⟨ds, rfl, .inr (.owned hcontext hvalue)⟩)
  | failedLookup hcontext hfound herror =>
    exact .inr (.inl ⟨_, rfl, _, _, _, _, _, rfl, hcontext, hfound, herror, rfl⟩)
  | unknownFunction he => exact .inl (findFunction_fails _ _ _ he).isOwn.isSingle
  | freeCall hf harguments he =>
    rcases callFree_cases he with hsingle | ⟨ds, rfl, haccepts, hknown, hcall⟩
    · exact .inl hsingle
    · exact .inr (.inr ⟨ds, rfl, .inl (.free hf harguments haccepts hknown hcall)⟩)
  | ownedCall harguments he =>
    rcases callOwned_cases he with
      hsingle | ⟨ds, c, f, rfl, hcontext, hf, haccepts, hsettled, hcall⟩
    · exact .inl hsingle
    · exact .inr (.inr ⟨ds, rfl, .inl (.owned hcontext hf harguments haccepts hsettled hcall)⟩)
  | unary _ he => exact .inl (applyUnary_fails _ _ _ he).isSingle
  | first _ _ he => exact .inl (firstDecides_fails _ _ _ he).isSingle
  | second _ _ _ _ he => exact .inl (secondDecides_fails _ _ he).isSingle
  | operands _ _ _ he => exact .inl (applyBinary_fails _ _ _ _ he).isSingle
  | choice _ he => exact .inl (chooses_fails _ _ he).isSingle
  | index _ _ he => exact .inl (applyIndex_fails _ _ _ he).isSingle

/-! ### What trees fail with -/

/-- **An evaluation ends in an explanation** exactly if it comes to a call or a look-up that
gives it. -/
theorem failsIn_explained_iff :
    FailsIn scope n (.error (.explained ds)) ↔ ExplainedIn scope n ds := by
  constructor
  · rintro ⟨m, hm, h⟩
    -- an explanation is kept apart from what the evaluation reports itself
    rcases h.cases with hsingle | ⟨_, hdiagnosed, _⟩ | ⟨_, heq, hexplains⟩
    · exact hsingle.elim
    · cases hdiagnosed
    · cases heq
      exact ⟨m, hm, hexplains⟩
  · rintro ⟨m, hm, hcall | hlookup⟩
    · exact ⟨m, hm, hcall.failsAt⟩
    · exact ⟨m, hm, hlookup.failsAt⟩

/-- **Failures are reported** unless they are explained: when an evaluation fails with other
diagnostics, one of them is an error. -/
theorem FailsIn.isReported_or (h : FailsIn scope n e) :
    e.IsReported ∨ ∃ ds, e = .error (.explained ds) ∧ ExplainedIn scope n ds := by
  obtain ⟨m, hm, hfails⟩ := h
  rcases hfails.cases with hsingle | ⟨ds, rfl, hreports⟩ | ⟨ds, rfl, hexplains⟩
  · exact .inl hsingle.isReported
  · obtain ⟨_, _, _, _, found, _, _, _, herror, rfl⟩ := hreports
    exact .inl herror
  · exact .inr ⟨ds, rfl, m, hm, hexplains⟩

end Interpolation.Evaluation
