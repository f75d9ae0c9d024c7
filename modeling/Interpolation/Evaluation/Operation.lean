/-
What each kind of node does with the values of its kids.

* `joinParts_single` — a template with a single part has that part's value;
* `applyBinary_unknown_right` — an operator on a value that is not known yet gives
  one that is not known yet.

Design notes: these functions say what happens between the evaluations of the
kids and are shared by everything that evaluates.  `&&` and `||` come in two
halves, because the second operand may never be needed.
-/
import Interpolation.Evaluation.Coercion
import Interpolation.Template.Operator
import Interpolation.Value.Equality

namespace Interpolation.Evaluation

open Template (UnaryOp BinaryOp)

/-- The texts of the parts of a template, which are numbered from `part`. -/
def partTexts (part : Nat) : List Value → Except Failure (List String)
  | [] => .ok []
  | v :: rest => do
    match v.kind with
    | .list | .map | .any => throw (.error (.unjoinable part v.kind))
    | _ =>
      let s ← v.toText
      let texts ← partTexts (part + 1) rest
      return s :: texts

/-- The value of a template with the given values of its parts. -/
def joinParts : List Value → Except Failure Value
  | [v] => .ok v
  | values =>
    if values.any Value.isUnknown then .ok .unknown
    else do
      let texts ← partTexts 1 values
      return .text (String.join texts)

/-- The value of a unary operator. -/
def applyUnary (op : UnaryOp) (v : Value) : Except Failure Value :=
  if v.isUnknown then .ok .unknown
  else
    match op with
    | .not => do return .bool (!(← v.toBool))
    | .negate => do return .ofNumber (← v.toNumber).negate

/-- How the order of two numbers decides a comparison; none holds when one of
them is not a number. -/
def decides (op : BinaryOp) : Option Ordering → Bool
  | none => false
  | some o =>
    match op with
    | .less => o.isLT
    | .lessEqual => o.isLE
    | .greater => o.isGT
    | .greaterEqual => o.isGE
    | _ => false

/-- The result of an arithmetic operator. -/
def arithmetic (op : BinaryOp) (a b : Number) : Except Number.Failure Number :=
  match op with
  | .add => a.add b
  | .subtract => a.subtract b
  | .multiply => a.multiply b
  | .divide => a.divide b
  | _ => a.modulo b

/-- The value of a binary operator that needs both operands. -/
def applyBinary (op : BinaryOp) (v w : Value) : Except Failure Value :=
  if v.isUnknown || w.isUnknown then .ok .unknown
  else
    match op with
    | .equal => .ok (.bool (v.equal w))
    | .notEqual => .ok (.bool (!v.equal w))
    | .less | .lessEqual | .greater | .greaterEqual => do
      let a ← v.toNumber
      let b ← w.toNumber
      return .bool (decides op (a.compare b))
    | _ => do
      let a ← v.toNumber
      let b ← w.toNumber
      match arithmetic op a b with
      | .ok n => return .ofNumber n
      | .error e => throw (.ofNumber e)

/-- Whether an operator may do without its second operand. -/
def isLazy : BinaryOp → Bool
  | .and | .or => true
  | _ => false

/-- The value of `&&` or `||` as far as the first operand decides it. -/
def firstDecides (op : BinaryOp) (v : Value) : Except Failure (Option Value) :=
  if v.isUnknown then .ok (some .unknown)
  else do
    let b ← v.toBool
    return if b = (op = .or) then some (.bool b) else none

/-- The value of `&&` or `||` once its second operand is needed. -/
def secondDecides (v : Value) : Except Failure Value :=
  if v.isUnknown then .ok .unknown else do return .bool (← v.toBool)

/-- Which branch a condition chooses; none when it is not known yet. -/
def chooses (v : Value) : Except Failure (Option Bool) :=
  if v.isUnknown then .ok none else do return some (← v.toBool)

/-- The text of a key in a message about a list: a text is shown without quotes. -/
def keyText : Value → Option String
  | .text s => some s
  | v => v.display

/-- The position that a number names in a list of some length. -/
def positionIn (length : Nat) : Number → Option Nat
  | .int i => if 0 ≤ i ∧ i < length then some i.toNat else none
  | .float _ => none

/-- An element of a list. -/
def elementOf (items : List Value) (key : Value) : Except Failure Value := do
  let n ← key.toNumber
  match (positionIn items.length n).bind fun i => items[i]? with
  | some v => return v
  | none =>
    match keyText key with
    | some shown => throw (.error (.indexOutOfRange shown items.length))
    | none => throw (.fault .tooManyDigits)

/-- An entry of a map. -/
def entryOf (entries : List (String × Value)) : Value → Except Failure Value
  | .text s =>
    match Value.find? s entries with
    | some v => .ok v
    | none => .error (.error (.missingKey (Quoted.quote s)))
  | key => .error (.showing key .missingKey)

/-- The element of a collection under a key. -/
def applyIndex (target key : Value) : Except Failure Value :=
  if target.isUnknown || key.isUnknown then .ok .unknown
  else
    match target with
    | .list items | .tuple items => elementOf items key
    | .map entries => entryOf entries key
    | _ => .error (.error (.notIndexable target.kind))

theorem joinParts_single (v : Value) : joinParts [v] = .ok v := rfl

theorem applyBinary_unknown_right (op : BinaryOp) (v : Value) :
    applyBinary op v .unknown = .ok .unknown := by
  simp [applyBinary, Value.isUnknown]

end Interpolation.Evaluation
