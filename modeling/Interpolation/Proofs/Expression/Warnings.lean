/-
What comes with the value of an expression.

* `Evaluates.sublist_accesses` — the look-ups that are made are look-ups of the accesses
  of the tree, in the order of the accesses and each of them at most once;
* `FailsIn.isSingle_or` — under the usual interpretation of names an evaluation that fails
  has a single thing to say, unless a function explains the failure;
* `value_outcome` — the value of an expression comes with an error or an explanation and is
  no value, or comes with the warnings of the look-ups that were made and nothing else.

Design notes: an explanation need not hold an error, so that an expression may fail without
saying anything (`value_calling_silent`).
-/
import Interpolation.Proofs.Evaluation.Visits
import Interpolation.Proofs.Expression.Reference
import Interpolation.Proofs.Expression.Value
import Interpolation.Proofs.Template.Adoption

namespace Interpolation

namespace Evaluation

open Config (Diagnostics)
open Expression (Origin accesses interpretName_terse mem_accesses)
open Template (Node)

/-- The access that a look-up was made for. -/
def Visit.access (v : Visit) : Origin × Template.Pos × String :=
  (v.owner, v.pos, v.name)

/-- The accesses in a tree are its own and those in its kids. -/
theorem accesses_eq (n : Node Origin) :
    accesses n = (match n with
      | .access (some o) p name => [(o, p, name)]
      | _ => []) ++ n.kids.flatMap accesses := by
  unfold accesses
  rw [Node.subtrees_eq, List.filterMap_cons, List.filterMap_flatMap]
  split <;> split <;> simp_all

theorem EvaluatesAll.sublist_accesses {scope : Scope} {nodes : List (Node Origin)}
    (hnodes : ∀ n ∈ nodes, ∀ {v : Value} {visits : List Visit},
      Evaluates scope n v visits → (visits.map Visit.access).Sublist (accesses n))
    {values : List Value} {visits : List Visit} (h : EvaluatesAll scope nodes values visits) :
    (visits.map Visit.access).Sublist (nodes.flatMap accesses) := by
  induction nodes generalizing values visits with
  | nil =>
    cases h
    exact .slnil
  | cons n rest ih =>
    obtain ⟨hn, hrest⟩ := List.forall_mem_cons.mp hnodes
    cases h with
    | cons hv hvalues =>
      rw [List.map_append, List.flatMap_cons]
      exact (hn hv).append (ih hrest hvalues)

/-- **No look-up is made twice**: the look-ups are made for accesses of the tree, in their
order, and each access is looked up at most once. -/
theorem Evaluates.sublist_accesses {scope : Scope} {n : Node Origin} {v : Value}
    {visits : List Visit} (h : Evaluates scope n v visits) :
    (visits.map Visit.access).Sublist (accesses n) := by
  induction n generalizing v visits with
  | bare pos kids => cases h
  | output pos parts ih =>
    cases h with
    | output hparts _ =>
      rw [accesses_eq]
      exact EvaluatesAll.sublist_accesses ih hparts
  | literal pos value =>
    cases h
    exact List.nil_sublist _
  | access owner pos name =>
    cases h with
    | freeAccess _ => exact List.nil_sublist _
    | ownedAccess _ _ _ =>
      rw [accesses_eq]
      exact .refl _
  | call owner pos function arguments ih =>
    rw [accesses_eq]
    cases h with
    | freeCall _ harguments _ => exact EvaluatesAll.sublist_accesses ih harguments
    | ownedCall harguments _ => exact EvaluatesAll.sublist_accesses ih harguments
  | unary pos op operand ih =>
    cases h with
    | unary hoperand _ =>
      rw [accesses_eq]
      simpa [Node.kids] using ih hoperand
  | binary pos op left right ihl ihr =>
    have heq : accesses (.binary pos op left right) = accesses left ++ accesses right := by
      rw [accesses_eq]
      simp [Node.kids]
    rw [heq]
    cases h with
    | decided _ hleft _ => exact (ihl hleft).trans (List.sublist_append_left _ _)
    | undecided _ hleft _ hright _ | operands _ hleft hright _ =>
      rw [List.map_append]
      exact (ihl hleft).append (ihr hright)
  | conditional pos condition yes no ihc ihy ihn =>
    have heq : accesses (.conditional pos condition yes no) =
        accesses condition ++ (accesses yes ++ accesses no) := by
      rw [accesses_eq]
      simp [Node.kids]
    rw [heq]
    cases h with
    | neither hcondition _ => exact (ihc hcondition).trans (List.sublist_append_left _ _)
    | yes hcondition _ hbranch =>
      rw [List.map_append]
      exact (ihc hcondition).append ((ihy hbranch).trans (List.sublist_append_left _ _))
    | no hcondition _ hbranch =>
      rw [List.map_append]
      exact (ihc hcondition).append ((ihn hbranch).trans (List.sublist_append_right _ _))
  | index pos target key iht ihk =>
    cases h with
    | index htarget hkey _ =>
      rw [accesses_eq, List.map_append]
      simpa [Node.kids] using (iht htarget).append (ihk hkey)

/-- A visit keeps what the look-up of its access reported, and that was no error. -/
def Visit.IsClean (v : Visit) : Prop :=
  ∃ context found, (v.owner.lookup v.pos v.name).value context = .ok found ∧
    Config.hasErrors found.diagnostics = false ∧ v.warnings = found.diagnostics

mutual

theorem Evaluates.isClean {scope : Scope} {n : Node Origin} {v : Value} {visits : List Visit} :
    Evaluates scope n v visits → ∀ visit ∈ visits, visit.IsClean
  | .literal | .freeAccess _ => fun _ h => nomatch h
  | .ownedAccess _ hfound hclean =>
    List.forall_mem_singleton.mpr ⟨_, _, hfound, hclean, rfl⟩
  | .output hkids _ | .freeCall _ hkids _ | .ownedCall hkids _ => hkids.isClean
  | .unary hkid _ | .decided _ hkid _ | .neither hkid _ => hkid.isClean
  | .undecided _ hfirst _ hsecond _ | .operands _ hfirst hsecond _ | .yes hfirst _ hsecond |
    .no hfirst _ hsecond | .index hfirst hsecond _ =>
    List.forall_mem_append.mpr ⟨hfirst.isClean, hsecond.isClean⟩

theorem EvaluatesAll.isClean {scope : Scope} {nodes : List (Node Origin)} {values : List Value}
    {visits : List Visit} :
    EvaluatesAll scope nodes values visits → ∀ visit ∈ visits, visit.IsClean
  | .nil => fun _ h => nomatch h
  | .cons hn hrest => List.forall_mem_append.mpr ⟨hn.isClean, hrest.isClean⟩

end

/-- Warnings are no errors. -/
theorem hasErrors_warningsOf {visits : List Visit} (h : ∀ visit ∈ visits, visit.IsClean) :
    Config.hasErrors (warningsOf visits) = false := by
  rw [Bool.eq_false_iff, Ne, Config.hasErrors_iff]
  rintro ⟨d, hd, herror⟩
  obtain ⟨visit, hvisit, hd⟩ := List.mem_flatMap.mp hd
  obtain ⟨_, found, _, hclean, hwarnings⟩ := h visit hvisit
  rw [← hwarnings, Bool.eq_false_iff, Ne, Config.hasErrors_iff] at hclean
  exact hclean ⟨d, hd, herror⟩

/-! ### The usual interpretation of names -/

theorem lookup_terse {n : Node Origin} (h : IsUsual n) {o : Origin} {p : Template.Pos}
    {name : String} (hmem : (o, p, name) ∈ accesses n) (context : Option Config.Context) :
    Config.Terse ((o.lookup p name).value context) := by
  rw [Origin.lookup, h o p name hmem]
  exact interpretName_terse name _ context

theorem warningsOf_eq_nil {scope : Scope} {n : Node Origin} (hn : IsUsual n) {v : Value}
    {visits : List Visit} (h : Evaluates scope n v visits) : warningsOf visits = [] := by
  refine List.flatMap_eq_nil_iff.mpr fun visit hvisit => ?_
  obtain ⟨context, found, hfound, hclean, hwarnings⟩ := h.isClean visit hvisit
  have hmem : visit.access ∈ accesses n := h.sublist_accesses.subset (List.mem_map_of_mem hvisit)
  rcases lookup_terse hn hmem context found hfound with ⟨_, _, _, rfl⟩ | hnone
  · cases hclean
  · exact hwarnings.trans hnone

/-- **A failure says one thing** under the usual interpretation of names, unless a function
explains it. -/
theorem FailsIn.isSingle_or {scope : Scope} {n : Node Origin} (hn : IsUsual n) {e : Failure}
    (h : FailsIn scope n e) :
    e.IsSingle ∨ ∃ ds, e = .error (.explained ds) ∧ CallExplainsIn scope n ds := by
  obtain ⟨m, hm, hfails⟩ := h
  rcases hfails.cases with hsingle | ⟨ds, rfl, hreports⟩ | ⟨ds, rfl, hexplains⟩
  · exact .inl hsingle
  · obtain ⟨o, p, name, context, found, rfl, _, hfound, herror, rfl⟩ := hreports
    have hmem : (o, p, name) ∈ accesses n := mem_accesses.mpr hm.mem_subtrees
    rcases lookup_terse hn hmem context found hfound with ⟨summary, detail, subject, rfl⟩ | hnone
    · exact .inl ⟨summary, detail, subject, rfl⟩
    · rw [hnone] at herror
      cases herror
  · have hexplained : ExplainedIn scope n ds := ⟨m, hm, hexplains⟩
    exact .inr ⟨ds, rfl, hexplained.callExplainsIn hn⟩

end Evaluation

namespace Expression

open Config (Context Diagnostics Result)
open Evaluation (CallExplainsIn Evaluates ExplainedIn FailsIn IsUsual Visit warningsOf)
open Template (Node)

/-- The problem behind a failure that says one thing is one error. -/
theorem diagnostics_of_isSingle {failure : Failure} (h : failure.IsSingle) {problem : Problem}
    (hproblem : Problem.ofFailure failure = .ok problem) (source : Bytes) (start : Config.Pos) :
    ∃ summary detail subject,
      problem.diagnostics source start = [.error summary detail subject] := by
  cases failure with
  | error e =>
    cases e with
    | explained ds => exact h.elim
    | _ =>
      cases hproblem
      exact ⟨_, _, _, rfl⟩
  | diagnosed ds =>
    cases hproblem
    exact h
  | fault f => cases hproblem

/-- What is reported about a tree that fails is an error, or the explanation that its
evaluation comes to. -/
theorem hasErrors_or_explainedIn {scope : Evaluation.Scope} {n : Node Origin}
    {failure : Failure} (h : FailsIn scope n failure) {problem : Problem}
    (hproblem : Problem.ofFailure failure = .ok problem) (source : Bytes) (start : Config.Pos) :
    Config.hasErrors (problem.diagnostics source start) = true ∨
      ExplainedIn scope n (problem.diagnostics source start) := by
  rcases h.isReported_or with hreported | ⟨ds, rfl, hexplained⟩
  · exact .inl (hasErrors_of_ofFailure hreported hproblem source start)
  · cases hproblem
    exact .inr hexplained

/-- Under the usual interpretation of names it is a single error, or the explanation of a
function. -/
theorem single_or_callExplainsIn {scope : Evaluation.Scope} {n : Node Origin} (hn : IsUsual n)
    {failure : Failure} (h : FailsIn scope n failure) {problem : Problem}
    (hproblem : Problem.ofFailure failure = .ok problem) (source : Bytes) (start : Config.Pos) :
    (∃ summary detail subject,
        problem.diagnostics source start = [.error summary detail subject]) ∨
      CallExplainsIn scope n (problem.diagnostics source start) := by
  rcases h.isSingle_or hn with hsingle | ⟨ds, rfl, hexplains⟩
  · exact .inl (diagnostics_of_isSingle hsingle hproblem source start)
  · cases hproblem
    exact .inr hexplains

/-- **An outcome is never mixed.**  Either the tree has no value, and then the expression
gives no value, and reports an error or exactly the explanation that the evaluation comes to;
or the tree has one, and then the expression gives it together with the warnings of the
look-ups that were made, in order, none of them an error, for accesses of the tree each of
which was looked up at most once.  Under the usual interpretation of names there is one error
in the first case, unless a function explains the failure, and nothing in the second. -/
theorem value_outcome {e : Expression} {context : Option Context} {result : Result}
    (h : e.value context = .ok result) :
    ((∀ v visits, ¬ Evaluates (.ofContext context) e.root v visits) ∧ result.value = .dynamic ∧
        (Config.hasErrors result.diagnostics = true ∨
          ExplainedIn (.ofContext context) e.root result.diagnostics) ∧
        (IsUsual e.root →
          (∃ summary detail subject, result.diagnostics = [.error summary detail subject]) ∨
            CallExplainsIn (.ofContext context) e.root result.diagnostics)) ∨
      ∃ v visits, Evaluates (.ofContext context) e.root v visits ∧
        (visits.map Visit.access).Sublist (accesses e.root) ∧ result.value = v.toConfig ∧
        result.diagnostics = warningsOf visits ∧ Config.hasErrors result.diagnostics = false ∧
        (IsUsual e.root → result.diagnostics = []) := by
  have hgives := Evaluation.eval_gives (.ofContext context) e.root []
  cases hr : Evaluation.eval (.ofContext context) e.root [] with
  | ok r =>
    obtain ⟨v, ws⟩ := r
    cases h.symm.trans (value_of_eval hr)
    obtain ⟨visits, hvisits, rfl⟩ := (hgives v ws).mp hr
    exact .inr ⟨v, visits, hvisits, hvisits.sublist_accesses, rfl, rfl,
      Evaluation.hasErrors_warningsOf hvisits.isClean,
      fun husual => Evaluation.warningsOf_eq_nil husual hvisits⟩
  | error failure =>
    have hfails := (Evaluation.eval_failsWith _ _ [] failure).mp hr
    rw [value_of_failsIn hfails] at h
    cases hproblem : Problem.ofFailure failure with
    | error f =>
      rw [hproblem] at h
      cases h
    | ok problem =>
      rw [hproblem] at h
      cases h
      refine .inl ⟨fun v visits hvisits => ?_, rfl, ?_, fun husual => ?_⟩
      · cases hr.symm.trans ((hgives v _).mpr ⟨visits, hvisits, rfl⟩)
      · exact hasErrors_or_explainedIn hfails hproblem _ _
      · exact single_or_callExplainsIn husual hfails hproblem _ _

/-- A warning about a name. -/
private def deprecated (name : String) : Config.Diagnostic :=
  ⟨.warning, "Deprecated name", name, none⟩

/-- An owner that warns of every name, and takes it to be true. -/
private def warning : Origin :=
  ⟨Utf8.encode "${on ? x : y}".toList, .initial,
    fun name _ => ⟨fun _ => .ok ⟨.bool true, [deprecated name]⟩, []⟩⟩

/-- The expression `${on ? x : y}`. -/
private def choice : Expression :=
  ⟨.output ⟨"", 1, 1⟩ [.conditional ⟨"", 1, 3⟩ (.access (some warning) ⟨"", 1, 3⟩ "on")
    (.access (some warning) ⟨"", 1, 8⟩ "x") (.access (some warning) ⟨"", 1, 12⟩ "y")], warning⟩

/-- The warnings of `${on ? x : y}` are about `on` and `x`, in this order. -/
theorem value_outcome_choice :
    choice.value none = .ok ⟨.bool true, [deprecated "on", deprecated "x"]⟩ ∧
      ∃ v visits, Evaluates (.ofContext none) choice.root v visits ∧
        warningsOf visits = [deprecated "on", deprecated "x"] := by
  have h : choice.value none = .ok ⟨.bool true, [deprecated "on", deprecated "x"]⟩ := by
    with_unfolding_all rfl
  refine ⟨h, ?_⟩
  rcases value_outcome h with ⟨_, hnone, _⟩ | ⟨v, visits, hvisits, _, _, hwarnings, _⟩
  · cases hnone
  · exact ⟨v, visits, hvisits, hwarnings.symm⟩

/-- A function without arguments that explains its failure by saying nothing. -/
private def silent : Function :=
  ⟨"f", some ⟨0, some 0⟩, fun _ => .error (.explained [])⟩

/-- A context in which `f` is that function. -/
private def silence : Context :=
  ⟨⟨[], [("f", some silent)]⟩, []⟩

/-- The expression `${f()}`. -/
private def calling : Expression :=
  ofNode (.output ⟨"", 1, 1⟩ [.call none ⟨"", 1, 3⟩ "f" []])
    ⟨Utf8.encode "${f()}".toList, .initial, interpretName⟩

/-- The call `${f()}` fails, and nothing is reported about it. -/
theorem value_calling_silent :
    parse "${f()}" "" .initial interpretName = .ok (.ok calling) ∧
      calling.value (some silence) = .ok ⟨.dynamic, []⟩ ∧
      ∀ v visits, ¬ Evaluates (.ofContext (some silence)) calling.root v visits := by
  have hparse : parse "${f()}" "" .initial interpretName = .ok (.ok calling) := by
    with_unfolding_all rfl
  have heval : Evaluation.eval (.ofContext (some silence)) calling.root [] =
      .error (.error (.explained [])) := rfl
  refine ⟨hparse, ?_, fun v visits hvisits => ?_⟩
  · rw [value_of_failsIn ((Evaluation.eval_failsWith _ _ [] _).mp heval)]
    rfl
  · cases heval.symm.trans
      ((Evaluation.eval_gives _ calling.root [] v _).mpr ⟨visits, hvisits, rfl⟩)

end Expression

end Interpolation
