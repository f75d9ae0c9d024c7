/-
Evaluation with a chain of activations.

* `begin_weight`, `resume_weight`, `step_weight` — every step leaves less to do, so a
  run ends;
* `evaluate` — the value of a tree together with the warnings gathered.

Design notes: the engine works on one activation at a time, which either asks for the
value of a kid or gives its own.  Asking suspends it: what it has so far becomes a
frame, and an activation for the kid is put in front of it.  The engine does not look
at how far the current activation has come.  It remembers which one was made last: that
one is begun, and every other one is sent the last value given.  How deep a tree is
nested thus shows in the length of the chain and nowhere else, and no depth is too
much.  The weight of an engine counts the nodes that are still to be begun and the
frames that are still to be resumed.
-/
import Interpolation.Evaluation.Names
import Interpolation.Evaluation.Operation
import Interpolation.Template.Node

namespace Interpolation.Evaluation

open Config (Diagnostics)
open Expression (Origin)
open Template (Node UnaryOp BinaryOp)

/-- A node that is suspended until a kid has its value. -/
inductive Frame where
  /-- Values of the parts so far, latest first, and the parts still to come. -/
  | output (done : List Value) (rest : List (Node Origin))
  | freeCall (name : String) (f : ScopeFunction) (done : List Value)
      (rest : List (Node Origin))
  | ownedCall (owner : Origin) (pos : Template.Pos) (name : String)
      (places : List Template.Pos) (done : List Value) (rest : List (Node Origin))
  | operand (op : UnaryOp)
  | leftOperand (op : BinaryOp) (right : Node Origin)
  | rightOperand (op : BinaryOp) (left : Value)
  /-- The second operand of `&&` or `||`. -/
  | secondOperand
  | conditionOf (yes no : Node Origin)
  /-- The branch a condition has chosen. -/
  | branchOf
  | targetOf (key : Node Origin)
  | keyOf (target : Value)

/-- What a node does next: ask for the value of a kid, or give its own. -/
inductive Action where
  | ask (kid : Node Origin) (frame : Frame)
  | give (value : Value)

/-- Goes on with the parts of a template. -/
def continueOutput (done : List Value) : List (Node Origin) → Except Failure Action
  | [] => (joinParts done.reverse).map .give
  | part :: rest => .ok (.ask part (.output done rest))

/-- Goes on with the arguments of a call without an owner. -/
def continueFree (name : String) (f : ScopeFunction) (done : List Value) :
    List (Node Origin) → Except Failure Action
  | [] => (callFree name f done.reverse).map .give
  | argument :: rest => .ok (.ask argument (.freeCall name f done rest))

/-- Goes on with the arguments of a call with an owner. -/
def continueOwned (scope : Scope) (owner : Origin) (p : Template.Pos) (name : String)
    (places : List Template.Pos) (done : List Value) :
    List (Node Origin) → Except Failure Action
  | [] => (callOwned scope owner p name places done.reverse).map .give
  | argument :: rest => .ok (.ask argument (.ownedCall owner p name places done rest))

/-- The first action of a node. -/
def begin (scope : Scope) : Node Origin → Eval Action
  | .bare .. => Eval.fail (.fault .abstractEvaluation)
  | .output _ parts => Eval.ofExcept (continueOutput [] parts)
  | .literal _ value => pure (.give value)
  | .access none _ name => do return .give (← Eval.ofExcept (lookupFree scope name))
  | .access (some o) p name => do return .give (← lookupOwned scope o p name)
  | .call none _ name arguments => do
    let f ← Eval.ofExcept (scope.findFunction name)
    Eval.ofExcept (continueFree name f [] arguments)
  | .call (some o) p name arguments =>
    Eval.ofExcept (continueOwned scope o p name (arguments.map Node.pos) [] arguments)
  | .unary _ op operand => pure (.ask operand (.operand op))
  | .binary _ op left right => pure (.ask left (.leftOperand op right))
  | .conditional _ condition yes no => pure (.ask condition (.conditionOf yes no))
  | .index _ target key => pure (.ask target (.targetOf key))

/-- The next action of a suspended node, given the value it asked for. -/
def Frame.resume (scope : Scope) (v : Value) : Frame → Except Failure Action
  | .output done rest => continueOutput (v :: done) rest
  | .freeCall name f done rest => continueFree name f (v :: done) rest
  | .ownedCall owner p name places done rest =>
    continueOwned scope owner p name places (v :: done) rest
  | .operand op => (applyUnary op v).map .give
  | .leftOperand op right =>
    if isLazy op then do
      match ← firstDecides op v with
      | some decided => return .give decided
      | none => return .ask right .secondOperand
    else .ok (.ask right (.rightOperand op v))
  | .rightOperand op left => (applyBinary op left v).map .give
  | .secondOperand => (secondDecides v).map .give
  | .conditionOf yes no => do
    match ← chooses v with
    | none => return .give .unknown
    | some true => return .ask yes .branchOf
    | some false => return .ask no .branchOf
  | .branchOf => .ok (.give v)
  | .targetOf key => .ok (.ask key (.keyOf v))
  | .keyOf target => (applyIndex target v).map .give

mutual

/-- Number of nodes of a tree. -/
def nodeCount : Node Origin → Nat
  | .bare _ kids => 1 + nodeCounts kids
  | .output _ parts => 1 + nodeCounts parts
  | .literal .. => 1
  | .access .. => 1
  | .call _ _ _ arguments => 1 + nodeCounts arguments
  | .unary _ _ operand => 1 + nodeCount operand
  | .binary _ _ left right => 1 + (nodeCount left + nodeCount right)
  | .conditional _ condition yes no =>
    1 + (nodeCount condition + (nodeCount yes + nodeCount no))
  | .index _ target key => 1 + (nodeCount target + nodeCount key)

def nodeCounts : List (Node Origin) → Nat
  | [] => 0
  | n :: rest => nodeCount n + nodeCounts rest

end

/-- What a frame may still have to do. -/
def Frame.weight : Frame → Nat
  | .output _ rest | .freeCall _ _ _ rest | .ownedCall _ _ _ _ _ rest =>
    1 + 2 * nodeCounts rest
  | .leftOperand _ right => 1 + 2 * nodeCount right
  | .conditionOf yes no => 1 + 2 * (nodeCount yes + nodeCount no)
  | .targetOf key => 1 + 2 * nodeCount key
  | .operand _ | .rightOperand .. | .secondOperand | .branchOf | .keyOf _ => 1

/-- What is still to do after an action, not counting the frames below. -/
def Action.weight : Action → Nat
  | .ask kid frame => 2 * nodeCount kid + frame.weight
  | .give _ => 1

theorem map_give_weight {r : Except Failure Value} {action : Action}
    (h : r.map .give = .ok action) : action.weight = 1 := by
  cases r with
  | error e => cases h
  | ok v => cases h; rfl

theorem continueOutput_weight {done : List Value} {rest : List (Node Origin)}
    {action : Action} (h : continueOutput done rest = .ok action) :
    action.weight ≤ 1 + 2 * nodeCounts rest := by
  cases rest with
  | nil => rw [map_give_weight h]; omega
  | cons part rest => cases h; simp only [Action.weight, Frame.weight, nodeCounts]; omega

theorem continueFree_weight {name : String} {f : ScopeFunction} {done : List Value}
    {rest : List (Node Origin)} {action : Action}
    (h : continueFree name f done rest = .ok action) :
    action.weight ≤ 1 + 2 * nodeCounts rest := by
  cases rest with
  | nil => rw [map_give_weight h]; omega
  | cons argument rest => cases h; simp only [Action.weight, Frame.weight, nodeCounts]; omega

theorem continueOwned_weight {scope : Scope} {owner : Origin} {p : Template.Pos}
    {name : String} {places : List Template.Pos} {done : List Value}
    {rest : List (Node Origin)} {action : Action}
    (h : continueOwned scope owner p name places done rest = .ok action) :
    action.weight ≤ 1 + 2 * nodeCounts rest := by
  cases rest with
  | nil => rw [map_give_weight h]; omega
  | cons argument rest => cases h; simp only [Action.weight, Frame.weight, nodeCounts]; omega

theorem ofExcept_eq_ok {α : Type} {r : Except Failure α} {a : α} {ws ws' : Diagnostics}
    (h : Eval.ofExcept r ws = .ok (a, ws')) : r = .ok a := by
  cases r with
  | error e => cases h
  | ok b => cases h; rfl

theorem begin_weight {scope : Scope} {n : Node Origin} {action : Action}
    {ws ws' : Diagnostics} (h : begin scope n ws = .ok (action, ws')) :
    action.weight < 2 * nodeCount n := by
  cases n with
  | bare pos kids => cases h
  | output pos parts =>
    have := continueOutput_weight (ofExcept_eq_ok h)
    simp only [nodeCount]; omega
  | literal pos value => cases h; simp [Action.weight, nodeCount]
  | access owner pos name =>
    suffices ∃ v, action = .give v by
      obtain ⟨v, rfl⟩ := this
      simp [Action.weight, nodeCount]
    cases owner with
    | none =>
      simp only [begin, bind, StateT.bind, Except.bind] at h
      split at h
      · cases h
      · cases h; exact ⟨_, rfl⟩
    | some o =>
      simp only [begin, bind, StateT.bind, Except.bind] at h
      split at h
      · cases h
      · cases h; exact ⟨_, rfl⟩
  | call owner pos name arguments =>
    cases owner with
    | none =>
      simp only [begin, bind, StateT.bind, Except.bind] at h
      split at h
      · cases h
      · have := continueFree_weight (ofExcept_eq_ok h)
        simp only [nodeCount]; omega
    | some o =>
      have := continueOwned_weight (ofExcept_eq_ok h)
      simp only [nodeCount]; omega
  | unary pos op operand =>
    cases h; simp only [Action.weight, Frame.weight, nodeCount]; omega
  | binary pos op left right =>
    cases h; simp only [Action.weight, Frame.weight, nodeCount]; omega
  | conditional pos condition yes no =>
    cases h; simp only [Action.weight, Frame.weight, nodeCount]; omega
  | index pos target key =>
    cases h; simp only [Action.weight, Frame.weight, nodeCount]; omega

theorem resume_weight {scope : Scope} {v : Value} {frame : Frame} {action : Action}
    (h : frame.resume scope v = .ok action) : action.weight ≤ frame.weight := by
  cases frame with
  | output done rest => exact continueOutput_weight h
  | freeCall name f done rest => exact continueFree_weight h
  | ownedCall owner p name places done rest => exact continueOwned_weight h
  | operand op => exact Nat.le_of_eq (map_give_weight h)
  | leftOperand op right =>
    rw [Frame.resume] at h
    split at h
    · cases hd : firstDecides op v with
      | error e => rw [hd] at h; cases h
      | ok decided =>
        rw [hd] at h
        cases decided with
        | none => cases h; simp only [Action.weight, Frame.weight]; omega
        | some d => cases h; simp only [Action.weight, Frame.weight]; omega
    · cases h; simp only [Action.weight, Frame.weight]; omega
  | rightOperand op left => exact Nat.le_of_eq (map_give_weight h)
  | secondOperand => exact Nat.le_of_eq (map_give_weight h)
  | conditionOf yes no =>
    rw [Frame.resume] at h
    cases hc : chooses v with
    | error e => rw [hc] at h; cases h
    | ok choice =>
      rw [hc] at h
      match choice, h with
      | none, h => cases h; simp only [Action.weight, Frame.weight]; omega
      | some true, h => cases h; simp only [Action.weight, Frame.weight]; omega
      | some false, h => cases h; simp only [Action.weight, Frame.weight]; omega
  | branchOf => cases h; exact Nat.le_refl _
  | targetOf key => cases h; simp only [Action.weight, Frame.weight]; omega
  | keyOf target => exact Nat.le_of_eq (map_give_weight h)

/-- How far the work on a node has come. -/
inductive Progress where
  | fresh (n : Node Origin)
  /-- The kid that was asked for has to have its value first. -/
  | waiting (frame : Frame)

/-- Takes up the work on a node.  Work that waits is sent the value of the kid it asked
for; to work that is to begin nothing can be sent. -/
def Progress.resume (scope : Scope) (sent : Value) : Progress → Eval Action
  | .fresh n =>
    match sent with
    | .null => begin scope n
    | _ => Eval.fail (.fault (.broken "a value was sent to work that has not begun"))
  | .waiting frame => Eval.ofExcept (frame.resume scope sent)

/-- The work on one node.  Activations are numbered in the order in which they are
made. -/
structure Activation where
  number : Nat
  progress : Progress

/-- An evaluation under way: the current activation and behind it the one that asked for
it, and so on; the number of the activation made last; and the last value given. -/
structure Engine where
  chain : List Activation
  newest : Nat
  result : Value

namespace Engine

/-- The engine that is to evaluate a tree. -/
def start (n : Node Origin) : Engine :=
  ⟨[⟨0, .fresh n⟩], 0, .null⟩

/-- What an activation is sent when the work on it is taken up: nothing if it is the one
made last, and otherwise the last value given. -/
def sent (e : Engine) (current : Activation) : Value :=
  if current.number = e.newest then .null else e.result

/-- What becomes of an engine by an action of its current activation. -/
def after (e : Engine) (number : Nat) (previous : List Activation) : Action → Engine
  | .ask kid frame =>
    let made := e.newest + 1
    ⟨⟨made, .fresh kid⟩ :: ⟨number, .waiting frame⟩ :: previous, made, e.result⟩
  | .give v => ⟨previous, e.newest, v⟩

/-- Works on the current activation until it asks for a kid or gives its value. -/
def step (scope : Scope) (e : Engine) (current : Activation) (previous : List Activation) :
    Eval Engine := do
  return e.after current.number previous (← current.progress.resume scope (e.sent current))

end Engine

/-- What is still to do for an activation once the kid it waits for has its value. -/
def Progress.weight : Progress → Nat
  | .fresh n => 2 * nodeCount n
  | .waiting frame => frame.weight

/-- What is still to do for the current activation; a value that is to be sent counts. -/
def Progress.currentWeight : Progress → Nat
  | .fresh n => 2 * nodeCount n
  | .waiting frame => frame.weight + 1

/-- What is still to do for activations that wait. -/
def chainWeight : List Activation → Nat
  | [] => 0
  | a :: rest => a.progress.weight + chainWeight rest

/-- What is still to do altogether. -/
def Engine.weight (e : Engine) : Nat :=
  match e.chain with
  | [] => 0
  | current :: previous => current.progress.currentWeight + chainWeight previous

theorem Progress.resume_weight {scope : Scope} {sent : Value} {progress : Progress}
    {action : Action} {ws ws' : Diagnostics}
    (h : progress.resume scope sent ws = .ok (action, ws')) :
    action.weight < progress.currentWeight := by
  cases progress with
  | fresh n =>
    cases sent with
    | null => exact begin_weight h
    | _ => cases h
  | waiting frame => exact Nat.lt_succ_of_le (Evaluation.resume_weight (ofExcept_eq_ok h))

theorem Engine.weight_le (chain : List Activation) (newest : Nat) (result : Value) :
    (⟨chain, newest, result⟩ : Engine).weight ≤ chainWeight chain + 1 := by
  cases chain with
  | nil => exact Nat.zero_le _
  | cons current previous =>
    obtain ⟨number, progress⟩ := current
    cases progress with
    | fresh n =>
      simp only [weight, chainWeight, Progress.currentWeight, Progress.weight]
      omega
    | waiting frame =>
      simp only [weight, chainWeight, Progress.currentWeight, Progress.weight]
      omega

theorem Engine.step_weight {scope : Scope} {e next : Engine} {current : Activation}
    {previous : List Activation} (hchain : e.chain = current :: previous)
    {ws ws' : Diagnostics} (h : e.step scope current previous ws = .ok (next, ws')) :
    next.weight < e.weight := by
  have he : e.weight = current.progress.currentWeight + chainWeight previous := by
    rw [weight, hchain]
  simp only [step, bind, StateT.bind, Except.bind] at h
  split at h
  · cases h
  · next r hr =>
    obtain ⟨action, warnings⟩ := r
    have haction := Progress.resume_weight hr
    cases h
    cases action with
    | ask kid frame =>
      show 2 * nodeCount kid + (frame.weight + chainWeight previous) < e.weight
      simp only [Action.weight] at haction
      omega
    | give v =>
      have hnext := Engine.weight_le previous e.newest v
      simp only [Action.weight] at haction
      simp only [after]
      omega

/-- Runs an engine until no activation is left. -/
def Engine.run (scope : Scope) (e : Engine) (warnings : Diagnostics) :
    Except Failure (Value × Diagnostics) :=
  match _hchain : e.chain with
  | [] => .ok (e.result, warnings)
  | current :: previous =>
    match _h : e.step scope current previous warnings with
    | .error failure => .error failure
    | .ok (next, ws) => next.run scope ws
termination_by e.weight
decreasing_by exact Engine.step_weight _hchain _h

/-- The value of a tree in a scope, with the warnings gathered on the way. -/
def evaluate (scope : Scope) (n : Node Origin) : Except Failure (Value × Diagnostics) :=
  (Engine.start n).run scope []

end Interpolation.Evaluation
