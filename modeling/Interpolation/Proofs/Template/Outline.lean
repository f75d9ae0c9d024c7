/-
Adoption keeps the outline of a tree.

* `outline_adopt` — a node keeps its place, its kids and what is written at it, and only a
  name without an owner changes its sort;
* `adopt_adopt` — a tree that has been adopted does not change hands;
* `isAdoption_adopt` — what becomes of a tree without owners: every name in it has the new
  owner, and nothing else is different.

Design notes: an outline is everything about a node but its owner, with the kids counted
only.  The outlines of the nodes of a tree from the top down determine the tree up to
owners, so it is enough to compare these.
-/
import Interpolation.Proofs.Template.Adoption

namespace Interpolation.Template.Node

variable {Owner : Type}

/-- What is written at a node itself. -/
inductive Mark where
  | none
  | value (v : Value)
  | name (name : String)
  | unary (op : UnaryOp)
  | binary (op : BinaryOp)

/-- The value, the name or the operator of a node. -/
def mark : Node Owner → Mark
  | .literal _ value => .value value
  | .access _ _ name => .name name
  | .call _ _ function _ => .name function
  | .unary _ op _ => .unary op
  | .binary _ op _ _ => .binary op
  | _ => .none

/-- A node by itself, apart from its owner. -/
structure Outline where
  sort : String
  pos : Pos
  mark : Mark
  kidCount : Nat

/-- The outline of a node. -/
def outline (n : Node Owner) : Outline :=
  ⟨n.sort, n.pos, n.mark, n.kids.length⟩

/-- The sort of a node once it has been adopted. -/
def adoptedSort (sort : String) : String :=
  if sort = "VariableAccess" then "VariableAccessNode"
  else if sort = "Call" then "FunctionCallNode"
  else sort

/-- The outline of a node once it has been adopted. -/
def Outline.adopted (o : Outline) : Outline :=
  { o with sort := adoptedSort o.sort }

/-- How many nodes of a sort there are in a tree. -/
def sortCount (sort : String) (n : Node Owner) : Nat :=
  n.subtrees.countP fun m => m.sort = sort

variable (owner : Owner)

theorem sort_adopt (n : Node Owner) : (n.adopt owner).sort = adoptedSort n.sort := by
  cases n with
  | access o pos name => cases o <;> rfl
  | call o pos function arguments => cases o <;> rfl
  | _ => rfl

theorem mark_adopt (n : Node Owner) : (n.adopt owner).mark = n.mark := by
  cases n <;> simp [mark]

theorem outline_adopt (n : Node Owner) : (n.adopt owner).outline = n.outline.adopted := by
  rw [outline, sort_adopt, pos_adopt, mark_adopt, kids_adopt, List.length_map]
  rfl

/-- **A tree that has been adopted does not change hands.** -/
theorem adopt_adopt (other : Owner) (n : Node Owner) :
    (n.adopt owner).adopt other = n.adopt owner := by
  induction n with
  | bare pos kids ih => simpa using ih
  | output pos parts ih => simpa using ih
  | access o pos name => cases o <;> simp
  | call o pos function arguments ih => cases o <;> simpa using ih
  | literal pos value => simp
  | unary pos op operand ih => simp [ih]
  | binary pos op left right ihl ihr => simp [ihl, ihr]
  | conditional pos condition yes no ihc ihy ihn => simp [ihc, ihy, ihn]
  | index pos target key iht ihk => simp [iht, ihk]

/-- A sort of nodes without an owner becomes another sort, and no other sort becomes the
same. -/
theorem adoptedSort_eq_iff {n : Node Owner} (h : n.owner? = none) :
    (adoptedSort n.sort = "VariableAccessNode" ↔ n.sort = "VariableAccess") ∧
      (adoptedSort n.sort = "FunctionCallNode" ↔ n.sort = "Call") := by
  cases n with
  | access o pos name =>
    obtain rfl : o = none := h
    simp [sort, adoptedSort]
  | call o pos function arguments =>
    obtain rfl : o = none := h
    simp [sort, adoptedSort]
  | _ => simp [sort, adoptedSort]

theorem owner?_adopt (n : Node Owner) (h : n.owner? = none)
    (hsort : n.sort = "VariableAccess" ∨ n.sort = "Call") :
    (n.adopt owner).owner? = some owner := by
  cases n with
  | access o pos name =>
    obtain rfl : o = none := h
    rfl
  | call o pos function arguments =>
    obtain rfl : o = none := h
    rfl
  | _ => simp [sort] at hsort

/-- What becomes of a tree when it is adopted. -/
structure IsAdoption (owner : Owner) (n adopted : Node Owner) : Prop where
  /-- No name is left without an owner. -/
  none_free : adopted.sortCount "VariableAccess" = 0 ∧ adopted.sortCount "Call" = 0
  /-- There are as many names with an owner as there were names. -/
  count_owned : adopted.sortCount "VariableAccessNode" = n.sortCount "VariableAccess" ∧
    adopted.sortCount "FunctionCallNode" = n.sortCount "Call"
  /-- They all have the same owner. -/
  owner_eq : ∀ m ∈ adopted.subtrees, m.sort = "VariableAccessNode" ∨ m.sort = "FunctionCallNode" →
    m.owner? = some owner
  /-- From the top down, the nodes are what they were. -/
  outlines_eq : adopted.subtrees.map outline = n.subtrees.map fun m => m.outline.adopted
  /-- Nobody else can adopt the tree. -/
  stays : ∀ other, adopted.adopt other = adopted

/-- A sort is as frequent in an adopted tree as the sorts that become it were before. -/
theorem sortCount_adopt {sort before : String} {n : Node Owner}
    (h : ∀ m ∈ n.subtrees, adoptedSort m.sort = sort ↔ m.sort = before) :
    (n.adopt owner).sortCount sort = n.sortCount before := by
  rw [sortCount, subtrees_adopt, List.countP_map, sortCount]
  refine List.countP_congr fun m hm => ?_
  simp [sort_adopt, h m hm]

/-- No node of an adopted tree is a name that has no owner. -/
theorem sort_adopt_ne (n : Node Owner) :
    (n.adopt owner).sort ≠ "VariableAccess" ∧ (n.adopt owner).sort ≠ "Call" := by
  rw [sort_adopt, adoptedSort]
  split
  · decide
  · split
    · decide
    · exact ⟨‹_›, ‹_›⟩

theorem sortCount_eq_zero {sort : String} {n : Node Owner} (h : ∀ m ∈ n.subtrees, m.sort ≠ sort) :
    n.sortCount sort = 0 :=
  List.countP_eq_zero.mpr fun m hm => by simpa using h m hm

/-- **Adoption gives every name of a tree the new owner and changes nothing else.** -/
theorem isAdoption_adopt {n : Node Owner} (h : ∀ m ∈ n.subtrees, m.owner? = none) :
    IsAdoption owner n (n.adopt owner) where
  none_free := by
    have hsort : ∀ m ∈ (n.adopt owner).subtrees, m.sort ≠ "VariableAccess" ∧ m.sort ≠ "Call" := by
      rw [subtrees_adopt, List.forall_mem_map]
      exact fun m _ => sort_adopt_ne owner m
    exact ⟨sortCount_eq_zero fun m hm => (hsort m hm).1,
      sortCount_eq_zero fun m hm => (hsort m hm).2⟩
  count_owned :=
    ⟨sortCount_adopt owner fun m hm => (adoptedSort_eq_iff (h m hm)).1,
      sortCount_adopt owner fun m hm => (adoptedSort_eq_iff (h m hm)).2⟩
  owner_eq := by
    rw [subtrees_adopt, List.forall_mem_map]
    intro m hm hsort
    obtain ⟨haccess, hcall⟩ := adoptedSort_eq_iff (h m hm)
    rw [sort_adopt, haccess, hcall] at hsort
    exact owner?_adopt owner m (h m hm) hsort
  outlines_eq := by
    rw [subtrees_adopt, List.map_map]
    exact List.map_congr_left fun m _ => outline_adopt owner m
  stays := fun other => adopt_adopt owner other n

/-- The tree of `${f(f(a.b), -c)}`. -/
private def nestedCalls : Node Nat :=
  .output ⟨"", 1, 1⟩ [.call none ⟨"", 1, 3⟩ "f" [
    .call none ⟨"", 1, 5⟩ "f" [.access none ⟨"", 1, 7⟩ "a.b"],
    .unary ⟨"", 1, 13⟩ .negate (.access none ⟨"", 1, 14⟩ "c")]]

/-- Names deep inside of calls have the same owner as the calls, and keep it. -/
theorem isAdoption_nestedCalls :
    (∀ m ∈ nestedCalls.subtrees, m.owner? = none) ∧
      IsAdoption 7 nestedCalls (nestedCalls.adopt 7) ∧
      (nestedCalls.adopt 7).sortCount "FunctionCallNode" = 2 ∧
      ((nestedCalls.adopt 7).adopt 8).subtrees.filterMap owner? = [7, 7, 7, 7] := by
  have hfree : ∀ m ∈ nestedCalls.subtrees, m.owner? = none := by
    simp [nestedCalls, subtrees, subtreesAll, owner?]
  have hadopted := isAdoption_adopt 7 hfree
  refine ⟨hfree, hadopted, hadopted.count_owned.2, ?_⟩
  rw [hadopted.stays]
  rfl

end Interpolation.Template.Node
