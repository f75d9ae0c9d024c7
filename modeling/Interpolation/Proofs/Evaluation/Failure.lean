/-
What the steps of an evaluation fail with.

* `Fails.bind` — a computation in steps fails as one of its steps does;
* `applyBinary_fails`, `applyIndex_fails`, … — what a node does with the values of its
  kids fails with an evaluation error or a fault, never with diagnostics;
* `refusal_isSingle` — what is reported about a refused call is a single error.

Design notes: a failure may come without diagnostics (`IsOwn`), with a single error
(`IsSingle`), or with some that need only have an error among them (`IsReported`).  An
explanation is none of these, as nothing is known of its diagnostics.
-/
import Interpolation.Evaluation.Meaning
import Interpolation.Proofs.Evaluation.Computation

namespace Interpolation

namespace Failure

/-- A failure with diagnostics has an error among them. -/
def IsReported : Failure → Prop
  | .diagnosed ds => Config.hasErrors ds = true
  | .error (.explained _) => False
  | .error _ | .fault _ => True

/-- A failure with diagnostics has a single one, an error. -/
def IsSingle : Failure → Prop
  | .diagnosed ds => ∃ summary detail subject, ds = [.error summary detail subject]
  | .error (.explained _) => False
  | .error _ | .fault _ => True

/-- A failure comes without diagnostics. -/
def IsOwn : Failure → Prop
  | .diagnosed _ | .error (.explained _) => False
  | .error _ | .fault _ => True

/-- A failure is an evaluation error that comes without diagnostics. -/
def IsError : Failure → Prop
  | .error (.explained _) | .diagnosed _ | .fault _ => False
  | .error _ => True

theorem isOwn_or_explained (e : EvalError) : (Failure.error e).IsOwn ∨ ∃ ds, e = .explained ds := by
  cases e with
  | explained ds => exact .inr ⟨ds, rfl⟩
  | _ => exact .inl trivial

theorem IsError.isOwn {failure : Failure} (h : failure.IsError) : failure.IsOwn := by
  cases failure with
  | error e => cases e <;> exact h
  | _ => exact h.elim

theorem IsOwn.isSingle {failure : Failure} (h : failure.IsOwn) : failure.IsSingle := by
  cases failure with
  | error e => cases e <;> exact h
  | diagnosed ds => exact h.elim
  | fault f => trivial

theorem IsSingle.isReported {failure : Failure} (h : failure.IsSingle) :
    failure.IsReported := by
  cases failure with
  | error e => cases e <;> exact h
  | diagnosed ds =>
    obtain ⟨summary, detail, subject, rfl⟩ := h
    rfl
  | fault f => trivial

end Failure

namespace Evaluation

open Expression (Origin)
open Failure (IsError IsOwn IsReported IsSingle)
open Template (UnaryOp BinaryOp)

/-- Whatever a computation fails with has a property. -/
def Fails (E : Failure → Prop) {α : Type} (r : Except Failure α) : Prop :=
  ∀ e, r = .error e → E e

namespace Fails

variable {α β : Type} {E : Failure → Prop}

theorem ok (a : α) : Fails E (.ok a) := by
  intro e h
  cases h

theorem error {e : Failure} (h : E e) : Fails E (.error e : Except Failure α) := by
  intro e' h'
  cases h'
  exact h

theorem isOwn {r : Except Failure α} (h : Fails IsError r) : Fails IsOwn r :=
  fun e he => (h e he).isOwn

theorem bind {r : Except Failure α} {f : α → Except Failure β} (h : Fails E r)
    (hf : ∀ a, Fails E (f a)) : Fails E (r >>= f) := by
  cases r with
  | error e => exact error (h e rfl)
  | ok a => exact hf a

end Fails

theorem showing_isOwn {error : String → EvalError}
    (h : ∀ shown, (Failure.error (error shown)).IsOwn) (v : Value) :
    (Failure.showing v error).IsOwn := by
  unfold Failure.showing
  split
  · exact h _
  · trivial

theorem ofNumber_isOwn (e : Number.Failure) : (Failure.ofNumber e).IsOwn := by
  cases e <;> trivial

/-! ### Coercions -/

theorem toText_fails (v : Value) : Fails IsError v.toText := by
  have hwhole : ∀ i, Fails IsError (Value.toText.wholeText i) := by
    intro i
    unfold Value.toText.wholeText
    split
    · exact .ok _
    · exact .error trivial
  cases v with
  | bool b => exact .ok _
  | int i => exact hwhole i
  | float x =>
    rw [Value.toText]
    split
    · exact hwhole _
    · exact .ok _
  | notANumber mark => exact .ok _
  | text s => exact .ok s
  | _ => exact .error trivial

theorem toNumber_fails (v : Value) : Fails IsError v.toNumber := by
  cases v with
  | int i => exact .ok _
  | float x => exact .ok _
  | notANumber mark => exact .ok _
  | text s =>
    rw [Value.toNumber]
    split
    · exact .ok _
    · exact .error trivial
  | _ => exact .error trivial

theorem toBool_fails (v : Value) : Fails IsOwn v.toBool := by
  unfold Value.toBool
  split
  · exact .ok _
  · exact .ok _
  · exact .ok _
  · exact .error (showing_isOwn (by intro shown; trivial) _)

/-! ### What nodes do with the values of their kids -/

theorem partTexts_fails (part : Nat) (values : List Value) :
    Fails IsError (partTexts part values) := by
  induction values generalizing part with
  | nil => exact .ok []
  | cons v rest ih =>
    rw [partTexts]
    split
    · exact .error trivial
    · exact .error trivial
    · exact .error trivial
    · exact .bind (toText_fails v) fun s => .bind (ih (part + 1)) fun texts => .ok _

theorem joinParts_fails (values : List Value) : Fails IsError (joinParts values) := by
  unfold joinParts
  split
  · exact .ok _
  · split
    · exact .ok _
    · exact .bind (partTexts_fails 1 _) fun texts => .ok _

theorem applyUnary_fails (op : UnaryOp) (v : Value) : Fails IsOwn (applyUnary op v) := by
  unfold applyUnary
  split
  · exact .ok _
  · cases op with
    | negate => exact .bind (toNumber_fails v).isOwn fun n => .ok _
    | not => exact .bind (toBool_fails v) fun b => .ok _

theorem applyBinary_fails (op : BinaryOp) (v w : Value) : Fails IsOwn (applyBinary op v w) := by
  unfold applyBinary
  split
  · exact .ok _
  · split
    · exact .ok _
    · exact .ok _
    -- the four comparisons
    iterate 4
      exact .bind (toNumber_fails v).isOwn fun a => .bind (toNumber_fails w).isOwn fun b => .ok _
    · refine .bind (toNumber_fails v).isOwn fun a => .bind (toNumber_fails w).isOwn fun b => ?_
      split
      · exact .ok _
      · exact .error (ofNumber_isOwn _)

theorem firstDecides_fails (op : BinaryOp) (v : Value) : Fails IsOwn (firstDecides op v) := by
  unfold firstDecides
  split
  · exact .ok _
  · exact .bind (toBool_fails v) fun b => .ok _

theorem secondDecides_fails (v : Value) : Fails IsOwn (secondDecides v) := by
  unfold secondDecides
  split
  · exact .ok _
  · exact .bind (toBool_fails v) fun b => .ok _

theorem chooses_fails (v : Value) : Fails IsOwn (chooses v) := by
  unfold chooses
  split
  · exact .ok _
  · exact .bind (toBool_fails v) fun b => .ok _

theorem applyIndex_fails (target key : Value) : Fails IsOwn (applyIndex target key) := by
  have hitems : ∀ items, Fails IsOwn (elementOf items key) := by
    intro items
    refine .bind (toNumber_fails key).isOwn fun n => ?_
    split
    · exact .ok _
    · split
      · exact .error trivial
      · exact .error trivial
  have hentries : ∀ entries, Fails IsOwn (entryOf entries key) := by
    intro entries
    unfold entryOf
    split
    · split
      · exact .ok _
      · exact .error trivial
    · exact .error (showing_isOwn (by intro shown; trivial) _)
  unfold applyIndex
  split
  · exact .ok _
  · split
    · exact hitems _
    · exact hitems _
    · exact hentries _
    · exact .error trivial

/-! ### Names -/

theorem findFunction_fails (scope : Scope) (name : String) :
    Fails IsError (scope.findFunction name) := by
  unfold Scope.findFunction
  split
  · exact .ok _
  · exact .error trivial

theorem lookupFree_fails (scope : Scope) (name : String) :
    Fails IsError (lookupFree scope name) := by
  refine .bind ?_ fun v => .ok _
  unfold Scope.findVariable
  split
  · exact .ok _
  · exact .error trivial

theorem contextOf_fails (scope : Scope) : Fails IsError (contextOf scope) := by
  unfold contextOf
  split
  · exact .ok _
  · exact .error trivial

theorem refusal_eq_failedCall (o : Origin) (p : Template.Pos) (name : String)
    (places : List Template.Pos) (message : String) (argument : Option Int) :
    ∃ summary detail subject,
      refusal o p name places message argument = failedCall summary detail subject := by
  unfold refusal
  dsimp only
  split <;> exact ⟨_, _, _, rfl⟩

theorem refusal_isSingle (o : Origin) (p : Template.Pos) (name : String)
    (places : List Template.Pos) (message : String) (argument : Option Int) :
    (refusal o p name places message argument).IsSingle := by
  obtain ⟨summary, detail, subject, h⟩ := refusal_eq_failedCall o p name places message argument
  rw [h]
  exact ⟨summary, detail, some subject, rfl⟩

end Evaluation

end Interpolation
