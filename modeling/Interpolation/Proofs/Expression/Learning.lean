/-
Learning more about a context never changes a value that was already given.

* `lookupOwned_learns`, `callOwned_learns` — the names of an expression learn from a
  context that refines another;
* `eval_learns` — so does every tree in which nothing is compared for equality;
* `value_refines` — the value of an expression in the context that refines another
  refines its value there.
-/
import Interpolation.Proofs.Config.Learning
import Interpolation.Proofs.Evaluation.Learning
import Interpolation.Proofs.Evaluation.Names
import Interpolation.Proofs.Expression.Dependency

namespace Interpolation.Expression

open Config (Context found)
open Evaluation
open Template (Node)
open Value (Refines)

/-- Whether a tree compares values for equality somewhere. -/
def usesEquality (n : Node Origin) : Bool :=
  n.subtrees.any fun
    | .binary _ op _ _ => isEquality op
    | _ => false

/-- A value that templates do not know yet. -/
private abbrev IsUnknown (v : Value) : Prop :=
  v = .unknown

variable {c c' : Context} {o : Origin}

theorem interpretName_learns (hc : c.RefinedBy c') {name : String} {range : Config.Range}
    {v : Value} (h : found ((interpretName name range).value (some c)) = some v) :
    v = .dynamic ∨ ∃ v', found ((interpretName name range).value (some c')) = some v' ∧
      Refines .dynamic v v' := by
  unfold interpretName Reference.ofName at h ⊢
  rw [found_lookup] at h ⊢
  cases ht : traversalOf name range with
  | error e =>
    rw [ht] at h
    cases e <;> cases h
  | ok t =>
    rw [ht] at h
    exact Config.Traversal.value_learns hc h

theorem lookupOwned_learns (hc : c.RefinedBy c') (ho : o.interpret = interpretName)
    (p : Template.Pos) (name : String) :
    Eval.Learns IsUnknown (Refines .unknown) (lookupOwned (.ofContext (some c)) o p name)
      (lookupOwned (.ofContext (some c')) o p name) := by
  have hterse : ∀ context, Config.Terse ((o.lookup p name).value context) := by
    rw [Origin.lookup, ho]
    exact interpretName_terse name _
  cases hv : found ((o.lookup p name).value (some c)) with
  | none =>
    obtain ⟨e, he⟩ := lookupOwned_of_not_found hv
    rw [he]
    exact .undecided (.fail e) _
  | some v =>
    rw [lookupOwned_of_found (hterse _) hv]
    have hlearns : v = .dynamic ∨ ∃ v', found ((o.lookup p name).value (some c')) = some v' ∧
        Refines .dynamic v v' := by
      rw [Origin.lookup, ho] at hv ⊢
      exact interpretName_learns hc hv
    rcases hlearns with rfl | ⟨v', hv', hrefines⟩
    · have hunknown : IsUnknown (Value.toTemplate .dynamic) := rfl
      exact .undecided (.wait hunknown) _
    · rw [lookupOwned_of_found (hterse _) hv']
      exact .give hrefines.toTemplate

/-- A call with an argument in which something is unknown does not decide anything. -/
theorem callOwned_undecided (c : Context) (o : Origin) (p : Template.Pos) (name : String)
    (places : List Template.Pos) {values : List Value} (h : values.all Value.isSettled = false) :
    Eval.Undecided IsUnknown
      (Eval.ofExcept (callOwned (.ofContext (some c)) o p name places values)) := by
  cases hf : c.lookupFunction name with
  | none =>
    rw [callOwned_of_no_function rfl hf]
    exact .fail _
  | some f =>
    rw [callOwned_of_lookup rfl hf, h]
    cases f.accepts values.length with
    | false => exact .fail _
    | true => exact .wait rfl

theorem callOwned_learns (hc : c.RefinedBy c') (p : Template.Pos) (name : String)
    (places : List Template.Pos) {values values' : List Value}
    (hvalues : List.Forall₂ (Refines .unknown) values values') :
    Eval.Learns IsUnknown (Refines .unknown)
      (Eval.ofExcept (callOwned (.ofContext (some c)) o p name places values))
      (Eval.ofExcept (callOwned (.ofContext (some c')) o p name places values')) := by
  cases hall : values.all Value.isSettled with
  | false => exact .undecided (callOwned_undecided c o p name places hall) _
  | true =>
    -- Settled arguments are the same to the function, which never sees a tuple.
    have hmap := Refines.map_toConfig_eq (.inl rfl) hvalues (List.all_eq_true.mp hall)
    have hall' : values'.all Value.isSettled = true := by
      rw [← Value.all_isKnown_map_toConfig, ← hmap, Value.all_isKnown_map_toConfig, hall]
    cases hf : c.lookupFunction name with
    | none =>
      rw [callOwned_of_no_function rfl hf]
      exact .undecided (.fail _) _
    | some f =>
      have hf' : c'.lookupFunction name = some f := (hc.lookupFunction name).symm.trans hf
      rw [callOwned_of_lookup rfl hf, callOwned_of_lookup rfl hf', hvalues.length_eq, hall, hall',
        hmap]
      exact .ofExcept fun u hu => .inr ⟨u, hu, .refl u⟩

theorem all_isSettled_of_unknown {values : List Value} (h : .unknown ∈ values) :
    values.all Value.isSettled = false :=
  List.all_eq_false.mpr ⟨.unknown, h, by simp [Value.isSettled]⟩

theorem evalAll_learns {s s' : Scope} {nodes : List (Node Origin)}
    (h : ∀ k ∈ nodes, Eval.Learns IsUnknown (Refines .unknown) (eval s k) (eval s' k)) :
    Eval.Learns (.unknown ∈ ·) (List.Forall₂ (Refines .unknown)) (evalAll s nodes)
      (evalAll s' nodes) := by
  induction nodes with
  | nil =>
    rw [evalAll_nil, evalAll_nil]
    exact .give .nil
  | cons k rest ih =>
    obtain ⟨hk, hrest⟩ := List.forall_mem_cons.mp h
    rw [evalAll_cons, evalAll_cons]
    refine hk.bind (fun v hv => ?_) fun v v' hv => ?_
    · exact (ih hrest).bind_undecided fun values => .wait (hv ▸ List.mem_cons_self)
    · refine (ih hrest).bind (fun values hvalues => ?_) fun values values' hvalues => ?_
      · exact .wait (List.mem_cons_of_mem v hvalues)
      · exact .give (.cons hv hvalues)

/-- A node that goes on from what was found out before: the usual interpretation owns
its name, and it does not compare for equality. -/
def IsStrict : Node Origin → Prop
  | .access (some o) _ _ => o.interpret = interpretName
  | .binary _ op _ _ => isEquality op = false
  | _ => True

/-- **Trees learn.** Evaluated in a context about which more is known, a tree goes on
from what it gave before. -/
theorem eval_learns (hc : c.RefinedBy c') (n : Node Origin) (hn : ∀ m ∈ n.subtrees, IsStrict m) :
    Eval.Learns IsUnknown (Refines .unknown) (eval (.ofContext (some c)) n)
      (eval (.ofContext (some c')) n) := by
  induction n with
  | bare pos kids =>
    rw [eval]
    exact .undecided (.fail _) _
  | output pos parts ih =>
    obtain ⟨_, hkids⟩ := Node.forall_mem_subtrees.mp hn
    rw [eval, eval]
    refine (evalAll_learns fun k hk => ih k hk (hkids k hk)).bind (fun values hvalues => ?_)
      fun values values' hvalues => .ofExcept fun u hu => joinParts_learns hvalues hu
    exact .ofExcept fun u hu => joinParts_unknown hvalues hu
  | literal pos value =>
    rw [eval, eval]
    exact .give (.refl value)
  | access owner pos name =>
    cases owner with
    | none =>
      rw [eval]
      exact .undecided (.fail _) _
    | some o =>
      rw [eval, eval]
      exact lookupOwned_learns hc (Node.forall_mem_subtrees.mp hn).1 pos name
  | call owner pos function arguments ih =>
    obtain ⟨_, hkids⟩ := Node.forall_mem_subtrees.mp hn
    cases owner with
    | none =>
      rw [eval]
      exact .undecided (.fail _) _
    | some o =>
      rw [eval, eval]
      exact (evalAll_learns fun k hk => ih k hk (hkids k hk)).bind
        (fun values hvalues =>
          callOwned_undecided c o pos function _ (all_isSettled_of_unknown hvalues))
        fun values values' hvalues => callOwned_learns hc pos function _ hvalues
  | unary pos op operand ih =>
    obtain ⟨_, hkids⟩ := Node.forall_mem_subtrees.mp hn
    rw [eval, eval]
    refine (ih (hkids operand (by simp [Node.kids]))).bind (fun v hv => ?_)
      fun v v' hv => .ofExcept fun u hu => applyUnary_learns hv hu
    subst hv
    exact .wait rfl
  | binary pos op left right ihl ihr =>
    obtain ⟨hop, hkids⟩ := Node.forall_mem_subtrees.mp hn
    have hleft := ihl (hkids left (by simp [Node.kids]))
    have hright := ihr (hkids right (by simp [Node.kids]))
    rw [eval, eval]
    refine hleft.bind (fun v hv => ?_) fun v v' hv => ?_
    -- an unknown first operand is all that `&&` and `||` look at, and the other
    -- operators give nothing known for it, whatever the second operand does
    · subst hv
      split
      · exact .wait rfl
      · refine hright.bind_undecided fun w => .ofExcept fun u hu => ?_
        cases hu
        rfl
    · split
      · have hfirst : Eval.Learns (· = some .unknown) (· = ·) (Eval.ofExcept (firstDecides op v))
            (Eval.ofExcept (firstDecides op v')) :=
          .ofExcept fun decided hd => firstDecides_learns hv hd
        refine hfirst.bind (fun decided hd => ?_) fun decided decided' hd => ?_
        · subst hd
          exact .wait rfl
        · subst hd
          cases decided with
          | some u => exact .give (.refl u)
          | none =>
            refine hright.bind (fun w hw => ?_) fun w w' hw =>
              .ofExcept fun u hu => secondDecides_learns hw hu
            subst hw
            exact .wait rfl
      -- here the operator has to be strict in what is inside its operands, too
      · refine hright.bind (fun w hw => .ofExcept fun u hu => ?_) fun w w' hw =>
          .ofExcept fun u hu => applyBinary_learns hop hv hw hu
        subst hw
        rw [applyBinary_unknown_right] at hu
        cases hu
        rfl
  | conditional pos condition yes no ihc ihy ihn =>
    obtain ⟨_, hkids⟩ := Node.forall_mem_subtrees.mp hn
    have hcondition := ihc (hkids condition (by simp [Node.kids]))
    have hyes := ihy (hkids yes (by simp [Node.kids]))
    have hno := ihn (hkids no (by simp [Node.kids]))
    rw [eval, eval]
    refine hcondition.bind (fun v hv => ?_) fun v v' hv => ?_
    · subst hv
      exact .wait rfl
    · have hchoice : Eval.Learns (· = none) (· = ·) (Eval.ofExcept (chooses v))
          (Eval.ofExcept (chooses v')) :=
        .ofExcept fun choice hd => chooses_learns hv hd
      refine hchoice.bind (fun choice hd => ?_) fun choice choice' hd => ?_
      · subst hd
        exact .wait rfl
      -- the same branch is chosen again, since a condition that chooses is an atom
      · subst hd
        cases choice with
        | none =>
          have hunknown : IsUnknown .unknown := rfl
          exact .undecided (.wait hunknown) _
        | some b => cases b <;> assumption
  | index pos target key iht ihk =>
    obtain ⟨_, hkids⟩ := Node.forall_mem_subtrees.mp hn
    have htarget := iht (hkids target (by simp [Node.kids]))
    have hkey := ihk (hkids key (by simp [Node.kids]))
    rw [eval, eval]
    refine htarget.bind (fun v hv => ?_) fun v v' hv => ?_
    · subst hv
      refine hkey.bind_undecided fun w => .ofExcept fun u hu => ?_
      cases hu
      rfl
    · refine hkey.bind (fun w hw => .ofExcept fun u hu => ?_) fun w w' hw =>
        .ofExcept fun u hu => applyIndex_learns hv hw hu
      subst hw
      rw [applyIndex_unknown_right] at hu
      cases hu
      rfl

/-- The tree of an expression that was read from a text and compares nothing for
equality is strict. -/
theorem isStrict_of_parse {n : Node Origin} (hraw : n.Raw) (ho : o.interpret = interpretName)
    (hequality : usesEquality (n.adopt o) = false) : ∀ m ∈ (n.adopt o).subtrees, IsStrict m := by
  intro m hm
  have hop := List.any_eq_false.mp hequality m hm
  cases m with
  | access owner p name =>
    obtain rfl := (owner_of_mem_subtrees_adopt hraw hm).1 owner p name rfl
    exact ho
  | binary p op left right => simpa [IsStrict] using hop
  | _ => trivial

/-- **Learning an unknown never changes a value that was already given.** In a context
that refines another, an expression without `==` and `!=` has a value that refines the
one it had there, unless that was not known at all. -/
theorem value_refines {text file : String} {start : Config.Pos} {e : Expression}
    (h : parse text file start interpretName = .ok (.ok e))
    (hequality : usesEquality e.root = false) {c c' : Context} (hc : c.RefinedBy c') {w : Value}
    {ds : Config.Diagnostics} (hvalue : e.value (some c) = .ok ⟨w, ds⟩)
    (hds : Config.hasErrors ds = false) (hw : w ≠ .dynamic) :
    ∃ w' ds', e.value (some c') = .ok ⟨w', ds'⟩ ∧ Config.hasErrors ds' = false ∧
      Refines .dynamic w w' := by
  obtain ⟨n, _, hraw, rfl⟩ := parse_eq_ok h
  have hlearns := eval_learns hc _ (isStrict_of_parse hraw rfl hequality)
  obtain ⟨v, hv, rfl⟩ := (value_eq_ok_iff hds fun hnone => absurd hnone hw).mp hvalue
  have hknown : v ≠ .unknown := by
    rintro rfl
    exact hw rfl
  obtain ⟨v', hv', hrefines⟩ := hlearns.gives hv hknown
  exact ⟨v'.toConfig, ds, value_of_eval hv', hds, hrefines.toConfig⟩

/-- The expression `${a}`. -/
private def alone : Expression :=
  ofNode (.output ⟨"", 1, 1⟩ [.access none ⟨"", 1, 3⟩ "a"])
    ⟨Utf8.encode "${a}".toList, .initial, interpretName⟩

/-- A context of a single variable. -/
private def binding (v : Value) : Context :=
  ⟨⟨[("a", v)], []⟩, []⟩

private theorem binding_refinedBy {v w : Value} (h : Refines .dynamic v w) :
    (binding v).RefinedBy (binding w) := by
  refine .cons ⟨fun name => ?_, fun name => rfl⟩ .nil
  by_cases hname : name = "a"
  · subst hname
    exact .some h
  · simp only [binding, List.lookup_cons, beq_false_of_ne hname]
    exact .none

/-- A list of which one item becomes known remains a list with the other item. -/
theorem value_alone_refines :
    ∃ w' ds', alone.value (some (binding (.list [.text "known", .int 2]))) = .ok ⟨w', ds'⟩ ∧
      Config.hasErrors ds' = false ∧ Refines .dynamic (.list [.dynamic, .int 2]) w' := by
  have hparse : parse "${a}" "" .initial interpretName = .ok (.ok alone) := by
    with_unfolding_all rfl
  have hrefines : Refines .dynamic (.tuple [.dynamic, .int 2]) (.list [.text "known", .int 2]) := by
    refine .items rfl rfl rfl fun i x y hx hy => ?_
    rcases i with _ | _ | i
    · cases hx
      exact .fill y
    · cases hx
      cases hy
      exact .refl _
    · cases hx
  have hvalue : alone.value (some (binding (.tuple [.dynamic, .int 2]))) =
      .ok ⟨.list [.dynamic, .int 2], []⟩ :=
    value_of_eval (v := .list [.unknown, .int 2]) (by with_unfolding_all rfl)
  exact value_refines hparse rfl (binding_refinedBy hrefines) hvalue rfl (by rintro ⟨⟩)

end Interpolation.Expression
