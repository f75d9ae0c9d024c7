/-
What the operation of a node breaks down on.

* `toBool_eq_fault` — a value that is no bool is to be shown, and has no text;
* `lift_eq_error`, `modulo_eq_error` — how arithmetic ends without a number;
* `applyBinary_eq_fault`, `applyIndex_eq_fault`, … — the operations of nodes.

Design notes: most operations end in an evaluation error if they end without a value.  A
fault comes from three sources: a message that shows a value with too many digits, a whole
number that is to be rounded for an operation with a floating-point number, and the remainder
of an infinite number.  Each operation has one lemma that says on which operands it breaks
down, and with which fault.
-/
import Interpolation.Proofs.Evaluation.Failure
import Interpolation.Proofs.Number.Rounding
import Interpolation.Proofs.Value.Settled

namespace Interpolation

theorem Failure.showing_eq_fault {v : Value} {error : String → EvalError} {f : Fault} :
    Failure.showing v error = .fault f ↔ v.display = none ∧ f = .tooManyDigits := by
  unfold Failure.showing
  cases v.display with
  | some shown => simp
  | none => simp [eq_comm]

/-! ### Arithmetic -/

namespace Number

/-- A whole number too large to be rounded meets a floating-point number. -/
def Mismatched : Number → Number → Prop
  | .int i, .float _ | .float _, .int i => Binary64.OutOfReach i
  | _, _ => False

/-- Two numbers that are not both whole, of which the first is infinite when it is rounded
and the second is a number. -/
def HasNoRemainder (a b : Number) : Prop :=
  (∀ i j, ¬(a = .int i ∧ b = .int j)) ∧ ∃ x y, a.toFloat = .ok x ∧ b.toFloat = .ok y ∧
    (∃ negative, Binary64.decode x = .infinite negative) ∧ Binary64.decode y ≠ .notANumber

/-- Numbers that meet as floating-point numbers, after they have been rounded. -/
theorem rounded_eq_error {α : Type} {g : Float → Float → Except Failure α} {a b : Number}
    {e : Failure} (h : ∀ i j, ¬(a = .int i ∧ b = .int j)) :
    (a.toFloat >>= fun x => b.toFloat >>= g x) = .error e ↔
      (a.Mismatched b ∧ e = .overflow) ∨
        ∃ x y, a.toFloat = .ok x ∧ b.toFloat = .ok y ∧ g x y = .error e := by
  cases a with
  | int i =>
    cases b with
    | int j => exact absurd ⟨rfl, rfl⟩ (h i j)
    | float y =>
      rw [Mismatched, ← Binary64.ofInt?_eq_none_iff]
      cases hi : Binary64.ofInt? i with
      | none => simp [hi, toFloat, bind, Except.bind, eq_comm]
      | some x => simp [hi, toFloat, bind, Except.bind]
  | float x =>
    cases b with
    | int j =>
      rw [Mismatched, ← Binary64.ofInt?_eq_none_iff]
      cases hj : Binary64.ofInt? j with
      | none => simp [hj, toFloat, bind, Except.bind, eq_comm]
      | some y => simp [hj, toFloat, bind, Except.bind]
    | float y => simp [Mismatched, toFloat, bind, Except.bind]

theorem lift_eq_error {onInt : Int → Int → Int} {onFloat : Float → Float → Float} {a b : Number}
    {e : Failure} : lift onInt onFloat a b = .error e ↔ a.Mismatched b ∧ e = .overflow := by
  unfold lift
  split
  · simp [Mismatched]
  · next h =>
    refine (rounded_eq_error fun i j hij => h i j hij.1 hij.2).trans ?_
    simp [pure, Except.pure]

theorem divide_eq_error {a b : Number} {e : Failure} :
    a.divide b = .error e ↔
      (b.isZero = true ∧ e = .zeroDivisor) ∨ b.isZero = false ∧ a.Mismatched b ∧ e = .overflow := by
  unfold divide
  cases b.isZero with
  | true => simp [eq_comm]
  | false => simp [lift_eq_error]

theorem remainder_eq_error {x y : Float} {e : Failure} :
    remainder x y = .error e ↔
      (∃ negative, Binary64.decode x = .infinite negative) ∧
        Binary64.decode y ≠ .notANumber ∧ e = .domain := by
  unfold remainder
  cases Binary64.decode x with
  | notANumber => simp
  | infinite negative => cases Binary64.decode y <;> simp [eq_comm]
  | finite negative significand exponent => cases Binary64.decode y <;> simp

theorem modulo_eq_error {a b : Number} {e : Failure} :
    a.modulo b = .error e ↔
      (b.isZero = true ∧ e = .zeroDivisor) ∨
        b.isZero = false ∧
          ((a.Mismatched b ∧ e = .overflow) ∨ a.HasNoRemainder b ∧ e = .domain) := by
  unfold modulo
  split
  · next i j =>
    -- whole numbers are not rounded, so zero is all they can fail on
    have hwhole : ¬ HasNoRemainder (.int i) (.int j) := fun h => h.1 i j ⟨rfl, rfl⟩
    by_cases hj : j = 0
    · simp [isZero, equal_int, hj, eq_comm]
    · simp [isZero, equal_int, hj, Mismatched, hwhole]
  · next h =>
    have hnone : ∀ i j, ¬(a = .int i ∧ b = .int j) := fun i j hij => h i j hij.1 hij.2
    cases b.isZero with
    | true => simp [bind, Except.bind, throw, throwThe, MonadExceptOf.throw, eq_comm]
    | false =>
      simp only [Bool.false_eq_true, if_false]
      refine (rounded_eq_error hnone).trans ?_
      simp only [bind_eq_error, remainder_eq_error, pure, Except.pure, reduceCtorEq, and_false,
        exists_false, or_false]
      constructor
      · rintro (⟨hab, rfl⟩ | ⟨x, y, hx, hy, hinfinite, hnumber, rfl⟩)
        · exact .inr ⟨trivial, .inl ⟨hab, rfl⟩⟩
        · exact .inr ⟨trivial, .inr ⟨⟨hnone, x, y, hx, hy, hinfinite, hnumber⟩, rfl⟩⟩
      · rintro (⟨⟨⟩, _⟩ | ⟨_, ⟨hab, rfl⟩ | ⟨⟨_, x, y, hx, hy, hinfinite, hnumber⟩, rfl⟩⟩)
        · exact .inl ⟨hab, rfl⟩
        · exact .inr ⟨x, y, hx, hy, hinfinite, hnumber, rfl⟩

end Number

/-! ### What nodes do with the values of their kids -/

theorem Value.toBool_eq_fault {v : Value} {f : Fault} :
    v.toBool = .error (.fault f) ↔ v.display = none ∧ f = .tooManyDigits := by
  unfold Value.toBool
  split
  · simp [Value.display]
  · simp [Value.display]
  · simp [Value.display]
  · rw [Except.error.injEq, Failure.showing_eq_fault]

theorem Value.toNumber_ne_fault (v : Value) (f : Fault) : v.toNumber ≠ .error (.fault f) :=
  fun h => Evaluation.toNumber_fails v _ h

/-- A value without a text is known. -/
theorem Value.isUnknown_of_display {v : Value} (h : v.display = none) : v.isUnknown = false := by
  cases v with
  | unknown => simp [Value.display] at h
  | _ => rfl

namespace Evaluation

open Template (UnaryOp BinaryOp)

/-- What uses a value as a bool unless it is not known yet. -/
theorem usesBool_eq_fault {α : Type} {v : Value} {u : α} {g : Bool → α} {f : Fault} :
    (if v.isUnknown then .ok u else do return g (← v.toBool) : Except Failure α) =
      .error (.fault f) ↔ v.display = none ∧ f = .tooManyDigits := by
  split
  · next hunknown =>
    constructor
    · intro h
      cases h
    · rintro ⟨hv, _⟩
      rw [Value.isUnknown_of_display hv] at hunknown
      cases hunknown
  · simp [bind_eq_error, Value.toBool_eq_fault, pure, Except.pure]

theorem applyUnary_eq_fault {op : UnaryOp} {v : Value} {f : Fault} :
    applyUnary op v = .error (.fault f) ↔ op = .not ∧ v.display = none ∧ f = .tooManyDigits := by
  cases op with
  | not =>
    rw [eq_self, true_and]
    exact usesBool_eq_fault
  | negate =>
    unfold applyUnary
    split
    · simp
    · simp [bind_eq_error, Value.toNumber_ne_fault, pure, Except.pure]

theorem firstDecides_eq_fault {op : BinaryOp} {v : Value} {f : Fault} :
    firstDecides op v = .error (.fault f) ↔ v.display = none ∧ f = .tooManyDigits :=
  usesBool_eq_fault

theorem secondDecides_eq_fault {v : Value} {f : Fault} :
    secondDecides v = .error (.fault f) ↔ v.display = none ∧ f = .tooManyDigits :=
  usesBool_eq_fault

theorem chooses_eq_fault {v : Value} {f : Fault} :
    chooses v = .error (.fault f) ↔ v.display = none ∧ f = .tooManyDigits :=
  usesBool_eq_fault

theorem isLazy_of_isLogical {op : BinaryOp} (h : op.isLogical = false) : isLazy op = false := by
  cases op with
  | and | or => cases h
  | _ => rfl

/-- A whole number that is too large is not rounded for nothing: a zero divisor is reported
before. -/
theorem arithmetic_eq_overflow {op : BinaryOp} (hop : op.isLogical = false) {a b : Number} :
    arithmetic op a b = .error .overflow ↔
      a.Mismatched b ∧ (op = .divide ∨ op = .modulo → b.isZero = false) := by
  cases op with
  | add | subtract | multiply =>
    simp [arithmetic, Number.add, Number.subtract, Number.multiply, Number.lift_eq_error]
  | divide => simp [arithmetic, Number.divide_eq_error, and_comm]
  | modulo => simp [arithmetic, Number.modulo_eq_error, and_comm]
  | _ => cases hop

theorem arithmetic_eq_domain {op : BinaryOp} (hop : op.isLogical = false) {a b : Number} :
    arithmetic op a b = .error .domain ↔
      op = .modulo ∧ b.isZero = false ∧ a.HasNoRemainder b := by
  cases op with
  | add | subtract | multiply =>
    simp [arithmetic, Number.add, Number.subtract, Number.multiply, Number.lift_eq_error]
  | divide => simp [arithmetic, Number.divide_eq_error]
  | modulo => simp [arithmetic, Number.modulo_eq_error]
  | _ => cases hop

/-- The end of an arithmetic operation. -/
theorem ofNumber_eq_fault {r : Except Number.Failure Number} {f : Fault} :
    (match r with
      | .ok n => return Value.ofNumber n
      | .error e => throw (Failure.ofNumber e) : Except Failure Value) = .error (.fault f) ↔
      (r = .error .overflow ∧ f = .overflow) ∨ r = .error .domain ∧ f = .domain := by
  cases r with
  | ok n => simp [pure, Except.pure]
  | error e =>
    cases e <;> simp [Failure.ofNumber, throw, throwThe, MonadExceptOf.throw, eq_comm]

/-- A binary operator breaks down on numbers only, and if it is an arithmetic one. -/
theorem applyBinary_eq_fault {op : BinaryOp} (hstrict : isLazy op = false) {v w : Value}
    {f : Fault} :
    applyBinary op v w = .error (.fault f) ↔
      op.isLogical = false ∧ ∃ a b, v.toNumber = .ok a ∧ w.toNumber = .ok b ∧
        ((arithmetic op a b = .error .overflow ∧ f = .overflow) ∨
          arithmetic op a b = .error .domain ∧ f = .domain) := by
  unfold applyBinary
  split
  · next hunknown =>
    rw [Bool.or_eq_true, Value.isUnknown_iff, Value.isUnknown_iff] at hunknown
    rcases hunknown with rfl | rfl <;> simp [Value.toNumber]
  · cases op with
    | add | subtract | multiply | divide | modulo =>
      rw [show BinaryOp.isLogical _ = false from rfl, eq_self, true_and]
      simp only [bind_eq_error, Value.toNumber_ne_fault, false_or, exists_and_left]
      exact exists_congr fun a => and_congr_right fun _ => exists_congr fun b =>
        and_congr_right fun _ => ofNumber_eq_fault
    | equal | notEqual => simp [BinaryOp.isLogical, BinaryOp.level]
    | less | lessEqual | greater | greaterEqual =>
      simp [bind_eq_error, Value.toNumber_ne_fault, pure, Except.pure, BinaryOp.isLogical,
        BinaryOp.level]
    | and | or => cases hstrict

theorem elementOf_eq_fault {items : List Value} {key : Value} {f : Fault} :
    elementOf items key = .error (.fault f) ↔
      (∃ i, key = .int i ∧ ¬(0 ≤ i ∧ i < items.length) ∧ Digits.text? i = none) ∧
        f = .tooManyDigits := by
  unfold elementOf
  simp only [bind_eq_error, Value.toNumber_ne_fault, false_or]
  constructor
  · rintro ⟨n, hn, h⟩
    split at h
    · cases h
    · next hnone =>
      have htext : keyText key = none ∧ f = .tooManyDigits := by
        cases hkey : keyText key with
        | some shown => simp [hkey, throw, throwThe, MonadExceptOf.throw] at h
        | none => simpa [hkey, throw, throwThe, MonadExceptOf.throw, eq_comm] using h
      -- of the values that are numbers only a whole number may have no text
      cases key with
      | int i =>
        cases hn
        refine ⟨⟨i, rfl, fun hin => ?_, by simpa [keyText, Value.display] using htext.1⟩, htext.2⟩
        have hlt : i.toNat < items.length := by omega
        simp [positionIn, hin, hlt] at hnone
      | float x => simp [keyText, Value.display] at htext
      | notANumber mark => simp [keyText, Value.display] at htext
      | text s => simp [keyText] at htext
      | _ => cases hn
  · rintro ⟨⟨i, rfl, hout, htext⟩, rfl⟩
    refine ⟨.int i, rfl, ?_⟩
    simp [positionIn, hout, keyText, Value.display, htext, throw, throwThe, MonadExceptOf.throw]

theorem entryOf_eq_fault {entries : List (String × Value)} {key : Value} {f : Fault} :
    entryOf entries key = .error (.fault f) ↔ key.display = none ∧ f = .tooManyDigits := by
  unfold entryOf
  split
  · split <;> simp [Value.display]
  · rw [Except.error.injEq, Failure.showing_eq_fault]

/-- An index breaks down when it finds nothing and the key has no text for the message. -/
theorem applyIndex_eq_fault {target key : Value} {f : Fault} :
    applyIndex target key = .error (.fault f) ↔
      ((∃ items i, (target = .list items ∨ target = .tuple items) ∧ key = .int i ∧
          ¬(0 ≤ i ∧ i < items.length) ∧ Digits.text? i = none) ∨
        ∃ entries, target = .map entries ∧ key.display = none) ∧ f = .tooManyDigits := by
  unfold applyIndex
  split
  · next hunknown =>
    rw [Bool.or_eq_true, Value.isUnknown_iff, Value.isUnknown_iff] at hunknown
    rcases hunknown with rfl | rfl <;> simp [Value.display]
  · cases target with
    | list items => simp [elementOf_eq_fault]
    | tuple items => simp [elementOf_eq_fault]
    | map entries => simp [entryOf_eq_fault]
    | _ => simp

end Evaluation

end Interpolation
