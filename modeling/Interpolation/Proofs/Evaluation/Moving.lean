/-
Evaluation moves with its tree.

* `Moves.bind` — steps that move make a computation that moves;
* `callOwned_moved` — a call is refused for the same reason wherever it is written;
* `eval_moves` — a tree that is moved has the same value, or fails with the same error, and
  what is reported on the way is moved along.

Design notes: ranges come into an evaluation with the names that have an owner, and are only
ever passed on to reports.  So of two owners of a tree it need only be said that the second
finds every position, and what every name refers to, where the first does, moved.
-/
import Interpolation.Proofs.Config.Moving
import Interpolation.Proofs.Evaluation.Failure
import Interpolation.Proofs.Template.Adoption
import Interpolation.Proofs.Template.Relocation

namespace Interpolation

open Config (Diagnostic Diagnostics Range Result hasErrors)
open Expression (Origin)
open Template (Node)

/-- A failure with the ranges of its reports changed. -/
def Failure.mapRange (g : Range → Range) : Failure → Failure
  | .error e => .error e
  | .diagnosed diagnostics => .diagnosed (diagnostics.map (Diagnostic.mapRange g))
  | .fault f => .fault f

theorem Failure.IsOwn.mapRange_eq {failure : Failure} (h : failure.IsOwn) (g : Range → Range) :
    failure.mapRange g = failure := by
  cases failure with
  | diagnosed diagnostics => exact h.elim
  | _ => rfl

namespace Evaluation

variable {α β : Type} {g : Range → Range}

/-! ### Computations -/

/-- What an evaluation comes to, with the ranges of all reports changed. -/
def mapReports (g : Range → Range) :
    Except Failure (α × Diagnostics) → Except Failure (α × Diagnostics)
  | .ok (a, warnings) => .ok (a, warnings.map (Diagnostic.mapRange g))
  | .error failure => .error (failure.mapRange g)

/-- The second evaluation does what the first one does, and reports it elsewhere. -/
def Moves (g : Range → Range) (m m' : Eval α) : Prop :=
  ∀ warnings, m' (warnings.map (Diagnostic.mapRange g)) = mapReports g (m warnings)

theorem Moves.pure (a : α) : Moves g (Pure.pure a : Eval α) (Pure.pure a) :=
  fun _ => rfl

theorem Moves.bind {m m' : Eval α} {f f' : α → Eval β} (h : Moves g m m')
    (hf : ∀ a, Moves g (f a) (f' a)) : Moves g (m >>= f) (m' >>= f') := by
  intro warnings
  rw [Eval.bind_apply, Eval.bind_apply, h warnings]
  cases m warnings with
  | error failure => rfl
  | ok r => exact hf r.1 r.2

theorem Moves.ofExcept {r r' : Except Failure α} (h : r' = r.mapError (Failure.mapRange g)) :
    Moves g (Eval.ofExcept r) (Eval.ofExcept r') := by
  subst h
  intro warnings
  cases r <;> rfl

/-- What reports nothing does the same everywhere. -/
theorem Moves.same {r : Except Failure α} (h : Fails Failure.IsOwn r) :
    Moves g (Eval.ofExcept r) (Eval.ofExcept r) := by
  refine .ofExcept ?_
  cases r with
  | ok a => rfl
  | error failure => exact congrArg Except.error ((h failure rfl).mapRange_eq g).symm

theorem Moves.evalAll {scope : Scope} {nodes : List (Node Origin)}
    {h h' : Node Origin → Node Origin}
    (hnodes : ∀ n ∈ nodes, Moves g (eval scope (h n)) (eval scope (h' n))) :
    Moves g (evalAll scope (nodes.map h)) (evalAll scope (nodes.map h')) := by
  induction nodes with
  | nil =>
    rw [List.map_nil, List.map_nil, evalAll_nil]
    exact .pure []
  | cons n rest ih =>
    obtain ⟨hn, hrest⟩ := List.forall_mem_cons.mp hnodes
    rw [List.map_cons, List.map_cons, evalAll_cons, evalAll_cons]
    exact hn.bind fun v => (ih hrest).bind fun values => .pure _

/-! ### Names -/

variable {scope : Scope} {o o' : Origin} {f : Template.Pos → Template.Pos}

theorem lookupOwned_moves {p p' : Template.Pos} {name : String}
    (h : ∀ context, (o'.lookup p' name).value context =
      ((o.lookup p name).value context).map (Result.mapRange g)) :
    Moves g (lookupOwned scope o p name) (lookupOwned scope o' p' name) := by
  refine (Moves.same (contextOf_fails scope).isOwn).bind fun context => ?_
  rw [h context]
  cases (o.lookup p name).value context with
  | error f => cases f <;> exact fun warnings => rfl
  | ok found =>
    intro warnings
    have herrors : hasErrors (found.mapRange g).diagnostics = hasErrors found.diagnostics :=
      Config.hasErrors_mapRange found.diagnostics
    simp only [Except.map, herrors]
    split
    · rfl
    · show Except.ok _ = mapReports g (.ok (_, warnings ++ found.diagnostics))
      rw [mapReports, List.map_append]
      rfl

/-- A tree that was read from a text, whose names refer to the same for a second owner who
finds them elsewhere. -/
structure Movable (g : Range → Range) (f : Template.Pos → Template.Pos) (o o' : Origin)
    (n : Node Origin) : Prop where
  raw : n.Raw
  name : ∀ p name, .access none p name ∈ n.subtrees → ∀ context,
    (o'.lookup (f p) name).value context =
      ((o.lookup p name).value context).map (Result.mapRange g)

theorem Movable.kid {n k : Node Origin} (h : Movable g f o o' n) (hk : k ∈ n.kids) :
    Movable g f o o' k := by
  refine ⟨(Node.raw_iff.mp h.raw).2 k hk, fun p name hmem => h.name p name ?_⟩
  rw [Node.subtrees_eq]
  exact List.mem_cons_of_mem _ (List.mem_flatMap.mpr ⟨k, hk, hmem⟩)

theorem Movable.isRaw {n : Node Origin} (h : Movable g f o o' n) : n.isRaw = true :=
  (Node.raw_iff.mp h.raw).1

variable (hrange : ∀ p, o'.rangeAt (f p) = g (o.rangeAt p))
include hrange

/-- A refusal names the same argument wherever the call is written. -/
theorem refusal_moved (p : Template.Pos) (name : String) (places : List Template.Pos)
    (message : String) (argument : Option Int) :
    refusal o' (f p) name (places.map f) message argument =
      (refusal o p name places message argument).mapRange g := by
  have hplace : (argument.bind fun i =>
      if 0 ≤ i then ((places.map f)[i.toNat]?).map (i, ·) else none) =
      (argument.bind fun i => if 0 ≤ i then (places[i.toNat]?).map (i, ·) else none).map
        fun place => (place.1, f place.2) := by
    cases argument with
    | none => rfl
    | some i =>
      simp only [Option.bind_some, List.getElem?_map]
      split
      · cases places[i.toNat]? <;> rfl
      · rfl
  unfold refusal
  rw [hplace]
  cases argument.bind fun i => if 0 ≤ i then (places[i.toNat]?).map (i, ·) else none with
  | none => simp only [Option.map_none, hrange]; rfl
  | some place => simp only [Option.map_some, hrange]; rfl

/-- **A call is refused for the same reason wherever it is written.** -/
theorem callOwned_moved (p : Template.Pos) (name : String) (places : List Template.Pos)
    (arguments : List Value) :
    callOwned scope o' (f p) name (places.map f) arguments =
      (callOwned scope o p name places arguments).mapError (Failure.mapRange g) := by
  unfold callOwned
  cases hcontext : contextOf scope with
  | error e =>
    have hown : e.IsOwn := (contextOf_fails scope e hcontext).isOwn
    exact congrArg Except.error (hown.mapRange_eq g).symm
  | ok context =>
    cases context with
    | none => simp only [hrange]; rfl
    | some c =>
      simp only [hrange, refusal_moved hrange, bind, Except.bind]
      cases c.lookupFunction name with
      | none => rfl
      | some function =>
        dsimp only
        split
        · rfl
        · split
          · rfl
          · cases function.call (arguments.map Value.toConfig) with
            | ok v => rfl
            | error e => cases e <;> rfl

/-! ### Trees -/

/-- **Evaluation moves with its tree.** -/
theorem eval_moves {n : Node Origin} (h : Movable g f o o' n) :
    Moves g (eval scope (n.adopt o)) (eval scope ((n.moved f).adopt o')) := by
  induction n with
  | bare pos kids ih => cases h.isRaw
  | output pos parts ih =>
    have hparts := Moves.evalAll fun k hk => ih k hk (h.kid hk)
    rw [Node.moved_output, Node.adopt_output, Node.adopt_output, List.map_map, eval, eval]
    exact hparts.bind fun values => .same (joinParts_fails values).isOwn
  | literal pos value =>
    rw [Node.moved_literal, Node.adopt_literal, Node.adopt_literal, eval, eval]
    exact .pure value
  | access owner pos name =>
    cases owner with
    | some owner => cases h.isRaw
    | none =>
      rw [Node.moved_access, Node.adopt_access, Node.adopt_access, Option.none_or,
        Option.none_or, eval, eval]
      exact lookupOwned_moves (h.name pos name (by simp [Node.subtrees]))
  | call owner pos function arguments ih =>
    cases owner with
    | some owner => cases h.isRaw
    | none =>
      have harguments := Moves.evalAll fun k hk => ih k hk (h.kid hk)
      have hplaces : ((arguments.map (Node.moved f)).map (Node.adopt o')).map Node.pos =
          ((arguments.map (Node.adopt o)).map Node.pos).map f := by
        simp [Function.comp_def]
      rw [Node.moved_call, Node.adopt_call, Node.adopt_call, Option.none_or, Option.none_or, eval,
        eval, hplaces, List.map_map (f := Node.moved f)]
      refine harguments.bind fun values => .ofExcept ?_
      exact callOwned_moved hrange pos function _ values
  | unary pos op operand ih =>
    have hoperand := ih (h.kid (by simp [Node.kids]))
    rw [Node.moved_unary, Node.adopt_unary, Node.adopt_unary, eval, eval]
    exact hoperand.bind fun v => .same (applyUnary_fails op v)
  | binary pos op left right ihl ihr =>
    have hleft := ihl (h.kid (by simp [Node.kids]))
    have hright := ihr (h.kid (by simp [Node.kids]))
    rw [Node.moved_binary, Node.adopt_binary, Node.adopt_binary, eval, eval]
    refine hleft.bind fun v => ?_
    split
    · refine (Moves.same (firstDecides_fails op v)).bind fun decided => ?_
      split
      · exact .pure _
      · exact hright.bind fun w => .same (secondDecides_fails w)
    · exact hright.bind fun w => .same (applyBinary_fails op v w)
  | conditional pos condition yes no ihc ihy ihn =>
    have hcondition := ihc (h.kid (by simp [Node.kids]))
    have hyes := ihy (h.kid (by simp [Node.kids]))
    have hno := ihn (h.kid (by simp [Node.kids]))
    rw [Node.moved_conditional, Node.adopt_conditional, Node.adopt_conditional, eval, eval]
    refine hcondition.bind fun v => (Moves.same (chooses_fails v)).bind fun choice => ?_
    split
    · exact .pure _
    · exact hyes
    · exact hno
  | index pos target key iht ihk =>
    have htarget := iht (h.kid (by simp [Node.kids]))
    have hkey := ihk (h.kid (by simp [Node.kids]))
    rw [Node.moved_index, Node.adopt_index, Node.adopt_index, eval, eval]
    exact htarget.bind fun v => hkey.bind fun w => .same (applyIndex_fails v w)

end Evaluation

end Interpolation
