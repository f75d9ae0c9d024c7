/-
What activations ask for and what they are sent.

* `Reached.linked` — throughout a run the activation made last is the only one that can be
  still to begin;
* `Reached.awaits` — every suspended activation asked for a kid, and what is being done in
  front of it evaluates that kid;
* `evaluate_answers` — the engine gives a tree its meaning, and sends every activation the
  value of the kid it last asked for.

Design notes: that an activation asked for a kid is a fact about the past of a run, so runs
are relations between states here.  An activation takes no step from its request until the
value is there, so the kid it asked for is the one it asked for last (`Awaits`).  What keeps
the two together in between is `complete`: work on the activations in front comes to the
evaluation of the kid, however far it has got.
-/
import Interpolation.Proofs.Evaluation.Machine

namespace Interpolation.Evaluation

open Config (Diagnostics)
open Expression (Origin)
open Relation (ReflTransGen)
open Template (Node)

variable {scope : Scope} {n : Node Origin} {s t : Engine × Diagnostics}

/-- One step of a run, made by the activation of a number.  States come with the warnings
gathered so far. -/
def StepBy (scope : Scope) (number : Nat) (s t : Engine × Diagnostics) : Prop :=
  ∃ current previous, s.1.chain = current :: previous ∧ current.number = number ∧
    s.1.step scope current previous s.2 = .ok t

/-- The states of the run that evaluates a tree. -/
def Reached (scope : Scope) (n : Node Origin) (s : Engine × Diagnostics) : Prop :=
  ReflTransGen (fun s t => ∃ number, StepBy scope number s t) (Engine.start n, []) s

/-- A part of a run in which an activation takes no step. -/
def Rests (scope : Scope) (number : Nat) : Engine × Diagnostics → Engine × Diagnostics → Prop :=
  ReflTransGen fun s t => ∃ other, other ≠ number ∧ StepBy scope other s t

/-- An activation asked for a kid, when the given warnings had been gathered, and has taken
no step since.  The kid got an activation of its own right in front of it. -/
def Awaits (scope : Scope) (n : Node Origin) (s : Engine × Diagnostics) (a : Activation)
    (previous : List Activation) (kid : Node Origin) (ws : Diagnostics) : Prop :=
  ∃ before asked made, Reached scope n before ∧ StepBy scope a.number before asked ∧
    asked.1.chain = ⟨made, .fresh kid⟩ :: a :: previous ∧ asked.2 = ws ∧
    Rests scope a.number asked s

theorem Reached.linked (h : Reached scope n s) : s.1.Linked := by
  induction h with
  | refl => exact Engine.linked_start n
  | tail _ hstep ih =>
    obtain ⟨_, current, previous, hchain, -, hstep⟩ := hstep
    obtain ⟨action, -, hnext⟩ := Engine.step_eq_ok hstep
    exact hnext ▸ ih.after hchain action

theorem Awaits.step {a : Activation} {previous : List Activation} {kid : Node Origin}
    {ws : Diagnostics} (h : Awaits scope n s a previous kid ws) {number : Nat}
    (hne : number ≠ a.number) (hstep : StepBy scope number s t) :
    Awaits scope n t a previous kid ws := by
  obtain ⟨before, asked, made, hbefore, hasks, hasked, hws, hrests⟩ := h
  exact ⟨before, asked, made, hbefore, hasks, hasked, hws, hrests.tail ⟨number, hne, hstep⟩⟩

/-- **Suspended activations wait for the kid in front of them.** -/
theorem Reached.awaits (h : Reached scope n s) {front previous : List Activation}
    {number : Nat} {frame : Frame}
    (hs : s.1.chain = front ++ ⟨number, .waiting frame⟩ :: previous) :
    ∃ kid ws, Awaits scope n s ⟨number, .waiting frame⟩ previous kid ws ∧
      complete scope front s.1.result s.2 = eval scope kid ws := by
  induction h generalizing front number frame previous with
  | refl =>
    cases front with
    | nil => cases hs
    | cons first rest => simp [Engine.start] at hs
  | @tail s t hreached hstep ih =>
    obtain ⟨e, warnings⟩ := s
    obtain ⟨next, warnings'⟩ := t
    obtain ⟨_, current, behind, hchain, rfl, hrun⟩ := hstep
    have hstep : StepBy scope current.number (e, warnings) (next, warnings') :=
      ⟨current, behind, hchain, rfl, hrun⟩
    have hlinked : e.Linked := Reached.linked hreached
    replace hchain : e.chain = current :: behind := hchain
    obtain ⟨action, haction, rfl⟩ := Engine.step_eq_ok hrun
    replace haction : current.progress.resume scope (e.sent current) warnings =
        .ok (action, warnings') := haction
    -- an activation further back was waiting before, and what is done in front of it goes on
    have hfurther : ∀ middle, behind = middle ++ ⟨number, .waiting frame⟩ :: previous →
        ∃ kid ws, Awaits scope n (e.after current.number behind action, warnings')
            ⟨number, .waiting frame⟩ previous kid ws ∧
          (e.after current.number middle action).remaining scope warnings' =
            eval scope kid ws := by
      intro middle hmiddle
      have hsplit : e.chain = (current :: middle) ++ ⟨number, .waiting frame⟩ :: previous := by
        rw [hchain, hmiddle]
        rfl
      obtain ⟨kid, ws, hawaits, hkid⟩ := ih hsplit
      have hlt : number < current.number :=
        (hlinked.current hchain).2.2.number_lt ⟨number, .waiting frame⟩ (by simp [hmiddle])
      refine ⟨kid, ws, hawaits.step (Nat.ne_of_gt hlt) hstep, ?_⟩
      replace hkid : complete scope (current :: middle) e.result warnings = eval scope kid ws :=
        hkid
      rw [← hkid, Engine.remaining_after, hlinked.complete_cons hchain, bind_assoc,
        Eval.bind_apply (current.progress.resume scope (e.sent current)), haction]
      rfl
    cases action with
    | give v => exact hfurther front hs
    | ask kid asking =>
      cases front with
      | nil => cases hs
      | cons made rest =>
        obtain ⟨rfl, hrest⟩ := List.cons.inj hs
        cases rest with
        | nil =>
          cases hrest
          refine ⟨kid, warnings', ⟨(e, warnings), _, e.newest + 1, hreached, hstep, rfl, rfl,
            .refl⟩, ?_⟩
          show (eval scope kid >>= pure) warnings' = _
          rw [bind_pure]
        | cons suspended middle =>
          obtain ⟨rfl, hmiddle⟩ := List.cons.inj hrest
          exact hfurther middle hmiddle

/-- **The engine gives a tree its meaning by answering requests.**  It ends with the value,
or the failure, of evaluating the tree by recursion, where each kid that is asked for is
answered with what evaluating it gives.  On the way an activation is begun exactly when it
was made last, nothing being sent to it, and otherwise it is sent the value of the kid it
last asked for. -/
theorem evaluate_answers (scope : Scope) (n : Node Origin) :
    evaluate scope n = eval scope n [] ∧
    (∀ m, eval scope m = begin scope m >>= answer scope) ∧
    ∀ e ws current previous, Reached scope n (e, ws) → e.chain = current :: previous →
      ((∃ m, current.progress = .fresh m) ↔ current.number = e.newest) ∧
      (current.number = e.newest → e.sent current = .null) ∧
      ∀ frame, current.progress = .waiting frame →
        ∃ kid ws', Awaits scope n (e, ws) current previous kid ws' ∧
          eval scope kid ws' = .ok (e.sent current, ws) := by
  refine ⟨evaluate_eq_eval scope n, eval_eq_answer scope, ?_⟩
  intro e ws current previous hreached hchain
  obtain ⟨-, hnewest, -⟩ := (Reached.linked hreached).current hchain
  refine ⟨hnewest.symm, fun h => if_pos h, fun frame hframe => ?_⟩
  obtain ⟨number, progress⟩ := current
  cases hframe
  have hne : number ≠ e.newest := by
    intro hnumber
    obtain ⟨m, hm⟩ := hnewest.mp hnumber
    cases hm
  have hfront : e.chain = [] ++ ⟨number, .waiting frame⟩ :: previous := hchain
  obtain ⟨kid, ws', hawaits, hkid⟩ := hreached.awaits hfront
  refine ⟨kid, ws', hawaits, ?_⟩
  rw [← hkid, Engine.sent, if_neg hne]
  rfl

end Interpolation.Evaluation
