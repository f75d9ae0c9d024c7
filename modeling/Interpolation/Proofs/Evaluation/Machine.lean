/-
The engine computes the meaning of a tree.

* `eval_eq_answer` — the meaning of a node is what it gives when every kid it asks for is
  answered with the meaning of that kid;
* `run_eq_remaining` — a run ends as what is left to do in its chain of activations does;
* `evaluate_eq_eval` — for the engine that has just been started, that is the meaning of
  the tree.

Design notes: the sorts of nodes are told apart in `eval_eq_answer` only.  Everything said
of the engine is said of the actions of its activations, whatever nodes they belong to.
The engine is only understood when the activation made last is the only one that is still
to begin (`Linked`), and every step keeps that.  What remains to be done is then a function
of the chain and of the last value (`remaining`), and no step changes it.
-/
import Interpolation.Evaluation.Machine
import Interpolation.Evaluation.Meaning
import Interpolation.Proofs.Evaluation.Computation
import Mathlib.Logic.Relation

namespace Interpolation.Evaluation

open Config (Diagnostics)
open Expression (Origin)
open Template (Node)

/-! ### Requests and answers -/

theorem nodeCount_pos (n : Node Origin) : 0 < nodeCount n := by
  cases n with
  | literal | access => exact Nat.one_pos
  | _ =>
    simp only [nodeCount]
    omega

/-- What a node gives that goes on with an action, when each kid it asks for is answered
with the value that evaluating the kid gives. -/
def answer (scope : Scope) : Action → Eval Value
  | .give v => pure v
  | .ask kid frame => do
    let v ← eval scope kid
    match _h : frame.resume scope v with
    | .error e => Eval.fail e
    | .ok next => answer scope next
termination_by action => action.weight
decreasing_by
  have := resume_weight _h
  have := nodeCount_pos kid
  show next.weight < 2 * nodeCount kid + frame.weight
  omega

variable {scope : Scope}

theorem answer_give (v : Value) : answer scope (.give v) = pure v := by
  rw [answer]

theorem answer_ask (kid : Node Origin) (frame : Frame) :
    answer scope (.ask kid frame) =
      eval scope kid >>= fun v => Eval.ofExcept (frame.resume scope v) >>= answer scope := by
  rw [answer]
  congr 1
  funext v
  split <;> next h => rw [h]; rfl

theorem answer_gives (r : Except Failure Value) :
    Eval.ofExcept (r.map .give) >>= answer scope = Eval.ofExcept r := by
  cases r with
  | error e => rfl
  | ok v => exact answer_give v

/-- Nodes that are asked for from left to right, their values being gathered, latest
first, until `finish` makes something of them. -/
theorem answer_gather {frame : List Value → List (Node Origin) → Frame}
    {goOn : List Value → List (Node Origin) → Except Failure Action}
    {finish : List Value → Except Failure Value}
    (hnil : ∀ done, goOn done [] = (finish done.reverse).map .give)
    (hcons : ∀ done n rest, goOn done (n :: rest) = .ok (.ask n (frame done rest)))
    (hresume : ∀ v done rest, (frame done rest).resume scope v = goOn (v :: done) rest)
    (nodes : List (Node Origin)) (done : List Value) :
    Eval.ofExcept (goOn done nodes) >>= answer scope =
      evalAll scope nodes >>= fun values => Eval.ofExcept (finish (done.reverse ++ values)) := by
  induction nodes generalizing done with
  | nil => rw [hnil, answer_gives, evalAll_nil, pure_bind, List.append_nil]
  | cons n rest ih =>
    rw [hcons, Eval.ofExcept_ok, pure_bind, answer_ask, evalAll_cons, bind_assoc]
    congr 1
    funext v
    rw [hresume, ih, bind_assoc]
    simp

/-- **The meaning of a node answers its requests.** -/
theorem eval_eq_answer (scope : Scope) (n : Node Origin) :
    eval scope n = begin scope n >>= answer scope := by
  cases n with
  | bare pos kids =>
    rw [eval, begin]
    rfl
  | output pos parts =>
    rw [eval, begin]
    exact (answer_gather (fun _ => rfl) (fun _ _ _ => rfl) (fun _ _ _ => rfl) parts []).symm
  | literal pos value =>
    rw [eval, begin, pure_bind, answer_give]
  | access owner pos name =>
    cases owner with
    | none => simp [eval, begin, answer_give]
    | some o => simp [eval, begin, answer_give]
  | call owner pos function arguments =>
    cases owner with
    | none =>
      rw [eval, begin, bind_assoc]
      congr 1
      funext f
      exact (answer_gather (fun _ => rfl) (fun _ _ _ => rfl) (fun _ _ _ => rfl) arguments []).symm
    | some o =>
      rw [eval, begin]
      exact (answer_gather (fun _ => rfl) (fun _ _ _ => rfl) (fun _ _ _ => rfl) arguments []).symm
  | unary pos op operand =>
    rw [eval, begin, pure_bind, answer_ask]
    congr 1
    funext v
    exact (answer_gives _).symm
  | binary pos op left right =>
    rw [eval, begin, pure_bind, answer_ask]
    congr 1
    funext v
    rw [Frame.resume]
    by_cases hl : isLazy op
    · rw [if_pos hl, if_pos hl]
      cases firstDecides op v with
      | error e => rfl
      | ok decided =>
        cases decided with
        | some d => exact (answer_give d).symm
        | none =>
          show (eval scope right >>= fun w => Eval.ofExcept (secondDecides w)) =
            answer scope (.ask right .secondOperand)
          rw [answer_ask]
          congr 1
          funext w
          exact (answer_gives _).symm
    · rw [if_neg hl, if_neg hl, Eval.ofExcept_ok, pure_bind, answer_ask]
      congr 1
      funext w
      exact (answer_gives _).symm
  | conditional pos condition yes no =>
    rw [eval, begin, pure_bind, answer_ask]
    congr 1
    funext v
    -- the value of the chosen branch is passed on
    have hbranch : ∀ n, eval scope n = answer scope (.ask n .branchOf) := by
      intro n
      rw [answer_ask]
      simp [Frame.resume, answer_give]
    rw [Frame.resume]
    cases chooses v with
    | error e => rfl
    | ok choice =>
      cases choice with
      | none => exact (answer_give .unknown).symm
      | some first => cases first <;> exact hbranch _
  | index pos target key =>
    rw [eval, begin, pure_bind, answer_ask]
    congr 1
    funext v
    rw [Frame.resume, Eval.ofExcept_ok, pure_bind, answer_ask]
    congr 1
    funext w
    exact (answer_gives _).symm

/-! ### What a run comes to -/

/-- What is left to do in a chain of activations, given the last value. -/
def complete (scope : Scope) : List Activation → Value → Eval Value
  | [], v => pure v
  | ⟨_, .fresh n⟩ :: rest, _ => eval scope n >>= complete scope rest
  | ⟨_, .waiting frame⟩ :: rest, v =>
    Eval.ofExcept (frame.resume scope v) >>= answer scope >>= complete scope rest

/-- Activations that wait, each made before the ones in front of it and all of them made
before a given one. -/
inductive Waiting : Nat → List Activation → Prop where
  | nil {bound : Nat} : Waiting bound []
  | cons {bound number : Nat} {frame : Frame} {rest : List Activation} (h : number < bound)
    (hrest : Waiting number rest) : Waiting bound (⟨number, .waiting frame⟩ :: rest)

theorem Waiting.mono {bound bound' : Nat} {chain : List Activation} (h : Waiting bound chain)
    (hle : bound ≤ bound') : Waiting bound' chain := by
  cases h with
  | nil => exact .nil
  | cons h hrest => exact .cons (Nat.lt_of_lt_of_le h hle) hrest

theorem Waiting.number_lt {bound : Nat} {chain : List Activation} (h : Waiting bound chain) :
    ∀ a ∈ chain, a.number < bound := by
  induction h with
  | nil => simp
  | cons h _ ih =>
    exact List.forall_mem_cons.mpr ⟨h, fun a ha => Nat.lt_trans (ih a ha) h⟩

namespace Engine

/-- What is left to do for an engine. -/
def remaining (scope : Scope) (e : Engine) : Eval Value :=
  complete scope e.chain e.result

/-- The activation made last is the only one that can be still to begin, and if it is, it
is the current one. -/
inductive Linked : Engine → Prop where
  | begins {newest : Nat} {n : Node Origin} {previous : List Activation} {result : Value}
    (h : Waiting newest previous) : Linked ⟨⟨newest, .fresh n⟩ :: previous, newest, result⟩
  | resumes {newest : Nat} {chain : List Activation} {result : Value}
    (h : Waiting newest chain) : Linked ⟨chain, newest, result⟩

theorem linked_start (n : Node Origin) : (start n).Linked :=
  .begins .nil

/-- An action does not change what is left to do. -/
theorem remaining_after (e : Engine) (number : Nat) (previous : List Activation)
    (action : Action) :
    (e.after number previous action).remaining scope =
      answer scope action >>= complete scope previous := by
  cases action with
  | ask kid frame =>
    rw [answer_ask, bind_assoc]
    rfl
  | give v =>
    rw [answer_give, pure_bind]
    rfl

/-- Of a linked engine the current activation is to begin exactly when it was made last,
and the others were made before it. -/
theorem Linked.current {e : Engine} (h : e.Linked) {current : Activation}
    {previous : List Activation} (hchain : e.chain = current :: previous) :
    current.number ≤ e.newest ∧
      (current.number = e.newest ↔ ∃ n, current.progress = .fresh n) ∧
      Waiting current.number previous := by
  cases h with
  | begins hwaiting =>
    cases hchain
    exact ⟨Nat.le_refl _, ⟨fun _ => ⟨_, rfl⟩, fun _ => rfl⟩, hwaiting⟩
  | resumes hwaiting =>
    cases hwaiting with
    | nil => cases hchain
    | cons hlt hrest =>
      cases hchain
      refine ⟨Nat.le_of_lt hlt, ⟨fun h => absurd h (Nat.ne_of_lt hlt), ?_⟩, hrest⟩
      rintro ⟨n, hn⟩
      cases hn

/-- Work on the current activation of a linked engine goes on with what is to be done for
it, whatever stands behind it. -/
theorem Linked.complete_cons {e : Engine} (h : e.Linked) {current : Activation}
    {previous : List Activation} (hchain : e.chain = current :: previous)
    (rest : List Activation) :
    complete scope (current :: rest) e.result =
      current.progress.resume scope (e.sent current) >>= answer scope >>=
        complete scope rest := by
  obtain ⟨-, hnewest, -⟩ := h.current hchain
  obtain ⟨number, progress⟩ := current
  cases progress with
  | fresh n =>
    rw [sent, if_pos (hnewest.mpr ⟨n, rfl⟩), complete, eval_eq_answer]
    rfl
  | waiting frame =>
    have hne : number ≠ e.newest := by
      intro hnumber
      obtain ⟨n, hn⟩ := hnewest.mp hnumber
      cases hn
    rw [sent, if_neg hne, complete]
    rfl

/-- A step does not change what is left to do. -/
theorem Linked.remaining_step {e : Engine} (h : e.Linked) {current : Activation}
    {previous : List Activation} (hchain : e.chain = current :: previous) :
    e.remaining scope = e.step scope current previous >>= remaining scope := by
  rw [remaining, hchain, h.complete_cons hchain, step, bind_assoc, bind_assoc]
  congr 1
  funext action
  rw [pure_bind, remaining_after]

theorem Linked.after {e : Engine} (h : e.Linked) {current : Activation}
    {previous : List Activation} (hchain : e.chain = current :: previous) (action : Action) :
    (e.after current.number previous action).Linked := by
  obtain ⟨hle, -, hprevious⟩ := h.current hchain
  cases action with
  | ask kid frame => exact .begins (.cons (Nat.lt_succ_of_le hle) hprevious)
  | give v => exact .resumes (hprevious.mono hle)

theorem step_eq_ok {e next : Engine} {current : Activation} {previous : List Activation}
    {ws ws' : Diagnostics} (h : e.step scope current previous ws = .ok (next, ws')) :
    ∃ action, current.progress.resume scope (e.sent current) ws = .ok (action, ws') ∧
      next = e.after current.number previous action := by
  rw [step, Eval.bind_apply] at h
  obtain ⟨⟨action, warnings⟩, haction, h⟩ := bind_eq_ok.mp h
  cases h
  exact ⟨action, haction, rfl⟩

/-- **A run ends as what is left to do does.** -/
theorem run_eq_remaining {e : Engine} (h : e.Linked) (ws : Diagnostics) :
    e.run scope ws = e.remaining scope ws := by
  fun_induction run scope e ws with
  | case1 e ws hchain => rw [remaining, hchain]; rfl
  | case2 e ws current previous hchain failure hstep =>
    rw [h.remaining_step hchain, Eval.bind_apply, hstep]
    rfl
  | case3 e ws current previous hchain next ws' hstep ih =>
    obtain ⟨action, -, rfl⟩ := step_eq_ok hstep
    rw [ih (h.after hchain action), h.remaining_step hchain, Eval.bind_apply, hstep]
    rfl

end Engine

/-- The engine gives a tree its meaning: the same value with the same warnings, or the
same failure. -/
theorem evaluate_eq_eval (scope : Scope) (n : Node Origin) :
    evaluate scope n = eval scope n [] := by
  rw [evaluate, Engine.run_eq_remaining (Engine.linked_start n), Engine.remaining]
  show (eval scope n >>= pure) [] = _
  rw [bind_pure]

end Interpolation.Evaluation
