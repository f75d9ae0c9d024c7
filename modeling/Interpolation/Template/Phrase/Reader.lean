/-
Reading phrases off tokens.

* `run_append` — tokens can be read in parts;
* `run_error` — the token reported is the first one that cannot follow the ones
  before it.

Design notes: the reader goes over the tokens once and keeps a stack of what has
been begun and waits for its last operand.  A binary operator first completes
everything on the stack that binds at least as tightly; comparisons do not
chain, so a second one is refused while the first is still open.  Closing tokens
complete everything down to the construct they close.  The reader refuses a
token as soon as no phrase continues with it.
-/
import Interpolation.Template.Phrase

namespace Interpolation.Template

/-- A construct that waits for its last operand. -/
inductive Pending where
  | unary (offset : Nat) (op : UnaryOp)
  | binary (op : BinaryOp) (left : Phrase)
  /-- After a question mark. -/
  | yes (condition : Phrase)
  /-- After the colon that belongs to a question mark. -/
  | no (condition yes : Phrase)
  | group (offset : Nat)
  | index (target : Phrase)
  /-- Inside the parentheses of a call, with the arguments read so far. -/
  | call (offset : Nat) (function : List Char) (arguments : List Phrase)

/-- Where the reader is: before an operand or behind one. -/
inductive Reader where
  | before (stack : List Pending)
  | behind (stack : List Pending) (operand : Phrase)

namespace Reader

/-- The reader at the beginning of an expression. -/
def start : Reader := .before []

/-- What is due where the reader is. -/
def due : Reader → Due
  | .before _ => .operand
  | .behind .. => .operator

/-- Completes what binds at least as tightly as a level. -/
def settle (level : Nat) : List Pending → Phrase → List Pending × Phrase
  | .unary offset op :: stack, p => settle level stack (.unary offset op p)
  | .binary op left :: stack, p =>
    if level ≤ op.level then settle level stack (.binary op left p)
    else (.binary op left :: stack, p)
  | stack, p => (stack, p)

/-- Completes everything that does not need a closing token. -/
def complete : List Pending → Phrase → List Pending × Phrase
  | .unary offset op :: stack, p => complete stack (.unary offset op p)
  | .binary op left :: stack, p => complete stack (.binary op left p)
  | .no condition yes :: stack, p => complete stack (.conditional condition yes p)
  | stack, p => (stack, p)

/-- Whether the innermost open construct is a comparison. -/
def comparing : List Pending → Bool
  | .binary op _ :: _ => op.isComparison
  | _ => false

/-- Reads a binary operator. -/
def readBinary (op : BinaryOp) (stack : List Pending) (p : Phrase) : Option Reader :=
  if op.isComparison then
    let settled := settle (op.level + 1) stack p
    if comparing settled.1 then none else some (.before (.binary op settled.2 :: settled.1))
  else
    let settled := settle op.level stack p
    some (.before (.binary op settled.2 :: settled.1))

/-- Reads a token where an operand is due. -/
def stepBefore (stack : List Pending) (offset : Nat) : Token → Option Reader
  | .number digits => some (.behind stack (.number offset digits))
  | .bool b => some (.behind stack (.bool offset b))
  | .quoted body => some (.behind stack (.quoted offset body))
  | .name text => some (.behind stack (.name offset text))
  | .operator .subtract => some (.before (.unary offset .negate :: stack))
  | .bang => some (.before (.unary offset .not :: stack))
  | .openParen => some (.before (.group offset :: stack))
  | .closeParen =>
    match stack with
    | .call offset function [] :: rest => some (.behind rest (.call offset function []))
    | _ => none
  | _ => none

/-- Reads a token where an operator is due. -/
def stepBehind (stack : List Pending) (p : Phrase) : Token → Option Reader
  | .operator op => readBinary op stack p
  | .question =>
    let settled := settle 0 stack p
    some (.before (.yes settled.2 :: settled.1))
  | .colon =>
    match complete stack p with
    | (.yes condition :: rest, yes) => some (.before (.no condition yes :: rest))
    | _ => none
  | .comma =>
    match complete stack p with
    | (.call offset function arguments :: rest, argument) =>
      some (.before (.call offset function (arguments ++ [argument]) :: rest))
    | _ => none
  | .openParen =>
    match p with
    | .name offset function => some (.before (.call offset function [] :: stack))
    | _ => none
  | .closeParen =>
    match complete stack p with
    | (.group offset :: rest, inner) => some (.behind rest (.group offset inner))
    | (.call offset function arguments :: rest, argument) =>
      some (.behind rest (.call offset function (arguments ++ [argument])))
    | _ => none
  | .openBracket => some (.before (.index p :: stack))
  | .closeBracket =>
    match complete stack p with
    | (.index target :: rest, key) => some (.behind rest (.index target key))
    | _ => none
  | _ => none

/-- Reads one token, unless no phrase continues with it. -/
def step (r : Reader) (lexeme : Lexeme) : Option Reader :=
  match r with
  | .before stack => stepBefore stack lexeme.offset lexeme.token
  | .behind stack p => stepBehind stack p lexeme.token

/-- Reads tokens up to the first one that cannot follow. -/
def run (r : Reader) : List Lexeme → Except Lexeme Reader
  | [] => .ok r
  | lexeme :: rest =>
    match r.step lexeme with
    | some next => run next rest
    | none => .error lexeme

/-- The phrase that has been read, if nothing is missing. -/
def result? : Reader → Option Phrase
  | .before _ => none
  | .behind stack p =>
    match complete stack p with
    | ([], whole) => some whole
    | _ => none

@[simp] theorem run_nil (r : Reader) : r.run [] = .ok r := rfl

theorem run_cons (r : Reader) (lexeme : Lexeme) (rest : List Lexeme) :
    r.run (lexeme :: rest) =
      match r.step lexeme with
      | some next => next.run rest
      | none => .error lexeme := rfl

theorem run_cons_eq_ok {r last : Reader} {lexeme : Lexeme} {rest : List Lexeme} :
    r.run (lexeme :: rest) = .ok last ↔
      ∃ next, r.step lexeme = some next ∧ next.run rest = .ok last := by
  rw [run_cons]
  cases r.step lexeme with
  | none => simp
  | some next => simp

theorem run_append (r : Reader) (a b : List Lexeme) :
    r.run (a ++ b) = (r.run a).bind fun next => next.run b := by
  induction a generalizing r with
  | nil => rfl
  | cons lexeme rest ih =>
    rw [List.cons_append, run_cons, run_cons]
    cases r.step lexeme with
    | none => rfl
    | some next => exact ih next

theorem run_error {r : Reader} {lexemes : List Lexeme} {bad : Lexeme}
    (h : r.run lexemes = .error bad) :
    ∃ before after next, lexemes = before ++ bad :: after ∧ r.run before = .ok next ∧
      next.step bad = none := by
  induction lexemes generalizing r with
  | nil => cases h
  | cons lexeme rest ih =>
    rw [run_cons] at h
    cases hs : r.step lexeme with
    | none =>
      rw [hs] at h
      cases h
      exact ⟨[], rest, r, rfl, rfl, hs⟩
    | some next =>
      rw [hs] at h
      obtain ⟨before, after, last, rfl, hrun, hlast⟩ := ih h
      exact ⟨lexeme :: before, after, last, rfl, by rw [run_cons, hs]; exact hrun, hlast⟩

end Reader

end Interpolation.Template
