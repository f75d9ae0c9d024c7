/-
What adoption does to a tree.

* `adopt_output`, `adopt_call`, … — adoption, one sort of node at a time;
* `subtrees_adopt` — the subtrees of an adopted tree are the adopted subtrees;
* `mem_accesses` — the accesses of an expression are nodes of its tree;
* `owner_of_mem_subtrees_adopt` — the names of an adopted raw tree all have the one
  owner that adopted it.
-/
import Mathlib.Data.List.Basic
import Interpolation.Expression
import Interpolation.Proofs.Template.Raw

namespace Interpolation.Template.Node

variable {Owner : Type} (owner : Owner)

@[simp] theorem adopt_bare (pos : Pos) (kids : List (Node Owner)) :
    (bare pos kids).adopt owner = bare pos (kids.map (adopt owner)) :=
  congrArg (bare pos) (rebuildAll_eq_map _ kids)

@[simp] theorem adopt_output (pos : Pos) (parts : List (Node Owner)) :
    (output pos parts).adopt owner = output pos (parts.map (adopt owner)) :=
  congrArg (output pos) (rebuildAll_eq_map _ parts)

@[simp] theorem adopt_literal (pos : Pos) (value : Value) :
    (literal pos value : Node Owner).adopt owner = literal pos value := rfl

@[simp] theorem adopt_access (o : Option Owner) (pos : Pos) (name : String) :
    (access o pos name).adopt owner = access (o.or (some owner)) pos name := by
  cases o <;> rfl

@[simp] theorem adopt_call (o : Option Owner) (pos : Pos) (function : String)
    (arguments : List (Node Owner)) :
    (call o pos function arguments).adopt owner =
      call (o.or (some owner)) pos function (arguments.map (adopt owner)) := by
  have harguments := rebuildAll_eq_map (giveOwner owner) arguments
  cases o with
  | none => exact congrArg (call (some owner) pos function) harguments
  | some o => exact congrArg (call (some o) pos function) harguments

@[simp] theorem adopt_unary (pos : Pos) (op : UnaryOp) (operand : Node Owner) :
    (unary pos op operand).adopt owner = unary pos op (operand.adopt owner) := rfl

@[simp] theorem adopt_binary (pos : Pos) (op : BinaryOp) (left right : Node Owner) :
    (binary pos op left right).adopt owner =
      binary pos op (left.adopt owner) (right.adopt owner) := rfl

@[simp] theorem adopt_conditional (pos : Pos) (condition yes no : Node Owner) :
    (conditional pos condition yes no).adopt owner =
      conditional pos (condition.adopt owner) (yes.adopt owner) (no.adopt owner) := rfl

@[simp] theorem adopt_index (pos : Pos) (target key : Node Owner) :
    (index pos target key).adopt owner = index pos (target.adopt owner) (key.adopt owner) := rfl

@[simp] theorem pos_adopt (n : Node Owner) : (n.adopt owner).pos = n.pos := by
  cases n <;> simp [pos]

@[simp] theorem kids_adopt (n : Node Owner) :
    (n.adopt owner).kids = n.kids.map (adopt owner) := by
  cases n <;> simp [kids]

theorem subtrees_adopt (n : Node Owner) :
    (n.adopt owner).subtrees = n.subtrees.map (adopt owner) :=
  subtrees_map (kids_adopt owner) n

end Interpolation.Template.Node

namespace Interpolation.Expression

open Template (Node)

/-- The accesses with an owner are the nodes that are such accesses. -/
theorem mem_accesses {n : Node Origin} {o : Origin} {p : Template.Pos} {name : String} :
    (o, p, name) ∈ accesses n ↔ .access (some o) p name ∈ n.subtrees := by
  unfold accesses
  rw [List.mem_filterMap]
  constructor
  · rintro ⟨m, hm, heq⟩
    split at heq
    · cases heq
      exact hm
    · cases heq
  · intro h
    exact ⟨_, h, rfl⟩

/-- In an adopted raw tree every name is owned by the one that adopted it. -/
theorem owner_of_mem_subtrees_adopt {n : Node Origin} (hn : n.Raw) {origin : Origin}
    {m : Node Origin} (hm : m ∈ (n.adopt origin).subtrees) :
    (∀ o p name, m = .access o p name → o = some origin) ∧
      ∀ o p function arguments, m = .call o p function arguments → o = some origin := by
  rw [Node.subtrees_adopt] at hm
  obtain ⟨k, hk, rfl⟩ := List.mem_map.mp hm
  have hraw := hn k hk
  constructor
  · intro o p name h
    cases k with
    | access o' p' name' =>
      cases o' with
      | none => simp at h; exact h.1.symm
      | some o' => cases hraw
    | _ => simp at h
  · intro o p function arguments h
    cases k with
    | call o' p' function' arguments' =>
      cases o' with
      | none => simp at h; exact h.1.symm
      | some o' => cases hraw
    | _ => simp at h

end Interpolation.Expression
