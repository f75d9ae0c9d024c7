/-
An evaluation depends on the names in its tree and on nothing else of its scope.

* `eval_congr` — scopes that give the names in a tree the same meaning give the tree
  the same value, or the same failure, with the same warnings;
* `lookupOwned_congr`, `callOwned_congr` — contexts give a name the same meaning when
  they give its interpretation the same value, and when they have the same function.

Design notes: two scopes need not agree on a name but at the node where it stands,
since the meaning of a name with an owner may depend on the place.
-/
import Interpolation.Evaluation.Meaning
import Interpolation.Proofs.Evaluation.Computation

namespace Interpolation.Evaluation

open Config (Context)
open Expression (Origin)
open Template (Node)

/-- Two scopes give the name at a node, if it has one, the same meaning. -/
def SameAt (s s' : Scope) : Node Origin → Prop
  | .access none _ name => lookupFree s name = lookupFree s' name
  | .access (some o) p name => lookupOwned s o p name = lookupOwned s' o p name
  | .call none _ name _ => s.findFunction name = s'.findFunction name
  | .call (some o) p name arguments => ∀ values,
    callOwned s o p name (arguments.map Node.pos) values =
      callOwned s' o p name (arguments.map Node.pos) values
  | _ => True

theorem evalAll_congr {s s' : Scope} {nodes : List (Node Origin)}
    (h : ∀ k ∈ nodes, eval s k = eval s' k) : evalAll s nodes = evalAll s' nodes := by
  induction nodes with
  | nil => rw [evalAll_nil, evalAll_nil]
  | cons k rest ih =>
    obtain ⟨hk, hrest⟩ := List.forall_mem_cons.mp h
    rw [evalAll_cons, evalAll_cons, hk, ih hrest]

/-- **Evaluation is local.** Scopes that give the same meaning to the names in a tree
give the same meaning to the tree. -/
theorem eval_congr {s s' : Scope} {n : Node Origin} (h : ∀ m ∈ n.subtrees, SameAt s s' m) :
    eval s n = eval s' n := by
  induction n with
  | bare pos kids ih => rw [eval, eval]
  | output pos parts ih =>
    obtain ⟨_, hkids⟩ := Node.forall_mem_subtrees.mp h
    rw [eval, eval, evalAll_congr fun k hk => ih k hk (hkids k hk)]
  | literal pos value => rw [eval, eval]
  | access owner pos name =>
    obtain ⟨hname, _⟩ := Node.forall_mem_subtrees.mp h
    cases owner with
    | none => rw [eval, eval, hname]
    | some o => rw [eval, eval, hname]
  | call owner pos function arguments ih =>
    obtain ⟨hname, hkids⟩ := Node.forall_mem_subtrees.mp h
    have harguments := evalAll_congr fun k hk => ih k hk (hkids k hk)
    cases owner with
    | none => rw [eval, eval, hname, harguments]
    | some o =>
      rw [eval, eval, harguments]
      exact congrArg _ (funext fun values => congrArg _ (hname values))
  | unary pos op operand ih =>
    obtain ⟨_, hkids⟩ := Node.forall_mem_subtrees.mp h
    rw [eval, eval, ih (hkids operand (by simp [Node.kids]))]
  | binary pos op left right ihl ihr =>
    obtain ⟨_, hkids⟩ := Node.forall_mem_subtrees.mp h
    have hleft := ihl (hkids left (by simp [Node.kids]))
    have hright := ihr (hkids right (by simp [Node.kids]))
    rw [eval, eval, hleft, hright]
  | conditional pos condition yes no ihc ihy ihn =>
    obtain ⟨_, hkids⟩ := Node.forall_mem_subtrees.mp h
    have hcondition := ihc (hkids condition (by simp [Node.kids]))
    have hyes := ihy (hkids yes (by simp [Node.kids]))
    have hno := ihn (hkids no (by simp [Node.kids]))
    rw [eval, eval, hcondition, hyes, hno]
  | index pos target key iht ihk =>
    obtain ⟨_, hkids⟩ := Node.forall_mem_subtrees.mp h
    have htarget := iht (hkids target (by simp [Node.kids]))
    have hkey := ihk (hkids key (by simp [Node.kids]))
    rw [eval, eval, htarget, hkey]

/-! ### Names with an owner -/

variable {c c' : Context} {o : Origin} {p : Template.Pos} {name : String}

theorem lookupOwned_congr
    (h : (o.lookup p name).value (some c) = (o.lookup p name).value (some c')) :
    lookupOwned (.ofContext (some c)) o p name = lookupOwned (.ofContext (some c')) o p name := by
  unfold lookupOwned contextOf
  simp only [Scope.ofContext, Eval.ofExcept_ok, pure_bind, h]

theorem callOwned_congr (h : c.lookupFunction name = c'.lookupFunction name)
    (places : List Template.Pos) (arguments : List Value) :
    callOwned (.ofContext (some c)) o p name places arguments =
      callOwned (.ofContext (some c')) o p name places arguments := by
  unfold callOwned contextOf
  simp only [Scope.ofContext, bind, Except.bind, h]

end Interpolation.Evaluation
