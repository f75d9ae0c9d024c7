/-
Nodes of parsed templates.

* `Node.induction`, `Node.kids_induction` — to prove something of every tree, prove
  it of a node from what holds of its kids;
* `rebuild` applies a function to every node from the leaves up;
* `subtrees_eq`, `forall_mem_subtrees` — the subtrees of a tree are the tree itself
  and those of its kids, in order.

Design notes: a variable access or a call may have an owner, which decides what
the name means; without an owner its meaning comes from the scope of the
evaluation.  `Owner` is left open here.  A node knows the position at which it
starts and nothing of where it ends.
-/
import Interpolation.Template.Operator
import Interpolation.Template.Pos
import Interpolation.Value.Display

namespace Interpolation.Template

/-- A node of a template. -/
inductive Node (Owner : Type) where
  /-- A node without a meaning of its own. -/
  | bare (pos : Pos) (kids : List (Node Owner))
  /-- Literal text and interpolated expressions in a row. -/
  | output (pos : Pos) (parts : List (Node Owner))
  | literal (pos : Pos) (value : Value)
  | access (owner : Option Owner) (pos : Pos) (name : String)
  | call (owner : Option Owner) (pos : Pos) (function : String) (arguments : List (Node Owner))
  | unary (pos : Pos) (op : UnaryOp) (operand : Node Owner)
  | binary (pos : Pos) (op : BinaryOp) (left right : Node Owner)
  | conditional (pos : Pos) (condition yes no : Node Owner)
  | index (pos : Pos) (target key : Node Owner)

/-- Induction on trees, from the kids of a node to the node. -/
@[induction_eliminator]
theorem Node.induction {Owner : Type} {motive : Node Owner → Prop}
    (bare : ∀ pos kids, (∀ k ∈ kids, motive k) → motive (.bare pos kids))
    (output : ∀ pos parts, (∀ k ∈ parts, motive k) → motive (.output pos parts))
    (literal : ∀ pos value, motive (.literal pos value))
    (access : ∀ owner pos name, motive (.access owner pos name))
    (call : ∀ owner pos function arguments, (∀ k ∈ arguments, motive k) →
      motive (.call owner pos function arguments))
    (unary : ∀ pos op operand, motive operand → motive (.unary pos op operand))
    (binary : ∀ pos op left right, motive left → motive right →
      motive (.binary pos op left right))
    (conditional : ∀ pos condition yes no, motive condition → motive yes → motive no →
      motive (.conditional pos condition yes no))
    (index : ∀ pos target key, motive target → motive key → motive (.index pos target key))
    (n : Node Owner) : motive n :=
  Node.rec (motive_1 := motive) (motive_2 := fun nodes => ∀ k ∈ nodes, motive k)
    bare output literal access call unary binary conditional index
    (fun _ h => nomatch h)
    (fun _ _ first rest => List.forall_mem_cons.mpr ⟨first, rest⟩) n

namespace Node

variable {Owner : Type}

/-- Where a node starts. -/
def pos : Node Owner → Pos
  | .bare pos _ | .output pos _ | .literal pos _ | .access _ pos _ => pos
  | .call _ pos _ _ | .unary pos _ _ | .binary pos _ _ _ => pos
  | .conditional pos _ _ _ | .index pos _ _ => pos

/-- The nodes directly below a node. -/
def kids : Node Owner → List (Node Owner)
  | .bare _ kids => kids
  | .output _ parts => parts
  | .literal .. | .access .. => []
  | .call _ _ _ arguments => arguments
  | .unary _ _ operand => [operand]
  | .binary _ _ left right => [left, right]
  | .conditional _ condition yes no => [condition, yes, no]
  | .index _ target key => [target, key]

/-- The owner of a node. -/
def owner? : Node Owner → Option Owner
  | .access owner _ _ | .call owner _ _ _ => owner
  | _ => none

/-- The sort of a node by name. -/
def sort : Node Owner → String
  | .bare .. => "Node"
  | .output .. => "Output"
  | .literal .. => "Literal"
  | .access none .. => "VariableAccess"
  | .access (some _) .. => "VariableAccessNode"
  | .call none .. => "Call"
  | .call (some _) .. => "FunctionCallNode"
  | .unary .. | .binary .. => "Arithmetic"
  | .conditional .. => "Conditional"
  | .index .. => "Index"

mutual

/-- A tree rebuilt from the leaves up: each node goes through the function once
its kids have. -/
def rebuild (f : Node Owner → Node Owner) : Node Owner → Node Owner
  | .bare pos kids => f (.bare pos (rebuildAll f kids))
  | .output pos parts => f (.output pos (rebuildAll f parts))
  | .literal pos value => f (.literal pos value)
  | .access owner pos name => f (.access owner pos name)
  | .call owner pos function arguments =>
    f (.call owner pos function (rebuildAll f arguments))
  | .unary pos op operand => f (.unary pos op (rebuild f operand))
  | .binary pos op left right => f (.binary pos op (rebuild f left) (rebuild f right))
  | .conditional pos condition yes no =>
    f (.conditional pos (rebuild f condition) (rebuild f yes) (rebuild f no))
  | .index pos target key => f (.index pos (rebuild f target) (rebuild f key))

def rebuildAll (f : Node Owner → Node Owner) : List (Node Owner) → List (Node Owner)
  | [] => []
  | n :: rest => rebuild f n :: rebuildAll f rest

end

mutual

/-- A tree and everything below it, each node before its kids. -/
def subtrees : Node Owner → List (Node Owner)
  | n@(.bare _ kids) => n :: subtreesAll kids
  | n@(.output _ parts) => n :: subtreesAll parts
  | n@(.literal ..) => [n]
  | n@(.access ..) => [n]
  | n@(.call _ _ _ arguments) => n :: subtreesAll arguments
  | n@(.unary _ _ operand) => n :: subtrees operand
  | n@(.binary _ _ left right) => n :: (subtrees left ++ subtrees right)
  | n@(.conditional _ condition yes no) =>
    n :: (subtrees condition ++ subtrees yes ++ subtrees no)
  | n@(.index _ target key) => n :: (subtrees target ++ subtrees key)

def subtreesAll : List (Node Owner) → List (Node Owner)
  | [] => []
  | n :: rest => subtrees n ++ subtreesAll rest

end

/-- The node in one line, unless its value has no text: its sort, the number of
its kids and what sets it apart from nodes of the same sort. -/
def summary (n : Node Owner) : Option String := do
  let count := if n.kids.isEmpty then [] else ["*" ++ Digits.text n.kids.length]
  let parts ← match n with
    | .literal _ value => (value.display).map fun shown => ["value=" ++ shown]
    | .access _ _ name => some ["name=" ++ Quoted.quote name]
    | .call none _ function _ => some (count ++ ["func=" ++ Quoted.quote function])
    | .call (some _) _ function arguments =>
      some ["func=" ++ Quoted.quote function, "*" ++ Digits.text arguments.length]
    | .unary _ op _ => some (count ++ ["op=" ++ Quoted.quote op.symbol])
    | .binary _ op _ _ => some (count ++ ["op=" ++ Quoted.quote op.symbol])
    | _ => some count
  return n.sort ++ "(" ++ " ".intercalate parts ++ ")"

/-- Why a node cannot be built from given parts. -/
inductive Malformed where
  | emptyVariableName
  | emptyFunctionName
  | unaryOperator (symbol : String)
  | binaryOperator (symbol : String)
  | operandCount
  deriving DecidableEq, Repr

/-- The wording of a refusal to build a node. -/
def Malformed.message : Malformed → String
  | .emptyVariableName => "Variable name cannot be empty"
  | .emptyFunctionName => "Function name cannot be empty"
  | .unaryOperator symbol => "Unknown unary operator " ++ Quoted.quote symbol
  | .binaryOperator symbol => "Unknown binary operator " ++ Quoted.quote symbol
  | .operandCount => "Arithmetic requires one or two operands"

/-- A variable access; the name must not be empty. -/
def ofVariable (pos : Pos) (name : String) : Except Malformed (Node Owner) :=
  if name = "" then .error .emptyVariableName else .ok (.access none pos name)

/-- A function call; the name must not be empty. -/
def ofCall (pos : Pos) (function : String) (arguments : List (Node Owner)) :
    Except Malformed (Node Owner) :=
  if function = "" then .error .emptyFunctionName
  else .ok (.call none pos function arguments)

/-- An operator, given by its symbol, applied to operands. -/
def ofOperator (pos : Pos) (symbol : String) :
    List (Node Owner) → Except Malformed (Node Owner)
  | [operand] =>
    match UnaryOp.ofSymbol? symbol with
    | some op => .ok (.unary pos op operand)
    | none => .error (.unaryOperator symbol)
  | [left, right] =>
    match BinaryOp.ofSymbol? symbol with
    | some op => .ok (.binary pos op left right)
    | none => .error (.binaryOperator symbol)
  | _ => .error .operandCount

theorem rebuildAll_eq_map (f : Node Owner → Node Owner) (nodes : List (Node Owner)) :
    rebuildAll f nodes = nodes.map (rebuild f) := by
  induction nodes with
  | nil => simp [rebuildAll]
  | cons n rest ih => simp [rebuildAll, ih]

theorem subtreesAll_eq_flatMap (nodes : List (Node Owner)) :
    subtreesAll nodes = nodes.flatMap subtrees := by
  induction nodes with
  | nil => simp [subtreesAll]
  | cons n rest ih => simp [subtreesAll, ih]

theorem subtrees_eq (n : Node Owner) : n.subtrees = n :: n.kids.flatMap subtrees := by
  cases n <;> simp [subtrees, kids, subtreesAll_eq_flatMap]

/-- What holds of all subtrees holds of the tree and of all subtrees of its kids. -/
theorem forall_mem_subtrees {P : Node Owner → Prop} {n : Node Owner} :
    (∀ m ∈ n.subtrees, P m) ↔ P n ∧ ∀ k ∈ n.kids, ∀ m ∈ k.subtrees, P m := by
  rw [subtrees_eq, List.forall_mem_cons]
  constructor
  · rintro ⟨hn, h⟩
    exact ⟨hn, fun k hk m hm => h m (List.mem_flatMap.mpr ⟨k, hk, hm⟩)⟩
  · rintro ⟨hn, h⟩
    refine ⟨hn, fun m hm => ?_⟩
    obtain ⟨k, hk, hm⟩ := List.mem_flatMap.mp hm
    exact h k hk m hm

/-- Induction on trees where the sort of a node makes no difference. -/
theorem kids_induction {motive : Node Owner → Prop}
    (node : ∀ n, (∀ k ∈ n.kids, motive k) → motive n) (n : Node Owner) : motive n := by
  induction n with
  | bare pos kids ih => exact node _ ih
  | output pos parts ih => exact node _ ih
  | call owner pos function arguments ih => exact node _ ih
  | _ => exact node _ (by simp_all [kids])

/-- What is done to a tree and to its kids alike is done to every subtree. -/
theorem subtrees_map {h : Node Owner → Node Owner} (hkids : ∀ n, (h n).kids = n.kids.map h)
    (n : Node Owner) : (h n).subtrees = n.subtrees.map h := by
  induction n using kids_induction with
  | node n ih =>
    rw [subtrees_eq, subtrees_eq n, hkids, List.map_cons, List.flatMap_map, List.map_flatMap,
      List.flatMap_def, List.flatMap_def, List.map_congr_left ih]

end Node

end Interpolation.Template
