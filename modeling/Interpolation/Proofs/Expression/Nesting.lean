/-
Nested contexts.

* `Context.lookupVariable_flatten`, `Context.lookupFunction_flatten` — one level can hold
  what a chain of levels says;
* `value_of_isFlatOf` — an expression does not tell the two apart.

Design notes: the binding that counts is the innermost one, and it is written down as a way
to split the chain, without the look-ups.  The two kinds of names part here.  A variable
that is null counts as bound, and a function bound to nothing does not.
-/
import Interpolation.Proofs.Expression.Arguments

namespace Interpolation

namespace Config

/-- A level inside another one, as a single level.  A function bound to nothing is left
out, so that the one further out is seen through it. -/
def Level.over (inner outer : Level) : Level where
  «variables» := inner.variables ++ outer.variables
  functions :=
    inner.functions.filter (fun b => (inner.functions.lookup b.1).join.isSome) ++ outer.functions

/-- Leaving entries out by their keys leaves the other look-ups as they are. -/
theorem lookup_filter_keys {α : Type} (p : String → Bool) (entries : List (String × α))
    (name : String) :
    (entries.filter fun b => p b.1).lookup name = if p name then entries.lookup name else none := by
  induction entries with
  | nil => simp
  | cons b rest ih =>
    obtain ⟨key, a⟩ := b
    by_cases hk : name = key
    · subst hk
      cases hp : p name <;> simp [hp, ih]
    · have hne : (name == key) = false := beq_false_of_ne hk
      cases hp : p key <;> simp [hp, ih, List.lookup_cons, hne]

theorem Level.variables_lookup_over (inner outer : Level) (name : String) :
    (inner.over outer).variables.lookup name =
      (inner.variables.lookup name).or (outer.variables.lookup name) :=
  List.lookup_append

theorem Level.functions_lookup_over (inner outer : Level) (name : String) :
    ((inner.over outer).functions.lookup name).join =
      (inner.functions.lookup name).join.or (outer.functions.lookup name).join := by
  have hinner := lookup_filter_keys (fun key => (inner.functions.lookup key).join.isSome)
    inner.functions name
  rw [Level.over, List.lookup_append, hinner]
  cases hf : inner.functions.lookup name with
  | none => simp
  | some f =>
    cases f with
    | none => simp
    | some f => simp

namespace Context

/-- The innermost level that binds a variable binds it to this value, be it null. -/
def BindsVariable (c : Context) (name : String) (v : Value) : Prop :=
  ∃ nearer level further, c.levels = nearer ++ level :: further ∧
    level.variables.lookup name = some v ∧ ∀ l ∈ nearer, l.variables.lookup name = none

/-- The innermost level that binds the name of a function to something binds it to this
one. -/
def BindsFunction (c : Context) (name : String) (f : Function) : Prop :=
  ∃ nearer level further, c.levels = nearer ++ level :: further ∧
    level.functions.lookup name = some (some f) ∧
    ∀ l ∈ nearer, l.functions.lookup name = none ∨ l.functions.lookup name = some none

/-- A context without a parent, which binds each name to what the innermost binding in a
chain binds it to. -/
structure IsFlatOf (flat c : Context) : Prop where
  parentless : flat.outer = []
  «variables» : ∀ name v, flat.innermost.variables.lookup name = some v ↔ c.BindsVariable name v
  functions : ∀ name f,
    flat.innermost.functions.lookup name = some (some f) ↔ c.BindsFunction name f

/-- All levels of a context as one. -/
def flatten (c : Context) : Context :=
  ⟨c.levels.foldr Level.over ⟨[], []⟩, []⟩

/-- Every context is a single level or a child of another context. -/
@[elab_as_elim]
theorem chain_induction {motive : Context → Prop} (single : ∀ level, motive ⟨level, []⟩)
    (child : ∀ c level, motive c → motive (c.child level)) (c : Context) : motive c := by
  obtain ⟨innermost, outer⟩ := c
  induction outer generalizing innermost with
  | nil => exact single innermost
  | cons level outer ih => exact child ⟨level, outer⟩ innermost (ih level)

theorem flatten_child (c : Context) (level : Level) :
    (c.child level).flatten = ⟨level.over c.flatten.innermost, []⟩ :=
  rfl

section Parentless

variable {flat : Context} (h : flat.outer = [])
include h

theorem lookupVariable_of_parentless (name : String) :
    flat.lookupVariable name = flat.innermost.variables.lookup name := by
  rw [lookupVariable, levels, h, List.findSome?_cons]
  cases flat.innermost.variables.lookup name <;> rfl

theorem lookupFunction_of_parentless (name : String) :
    flat.lookupFunction name = (flat.innermost.functions.lookup name).join := by
  rw [lookupFunction, levels, h, List.findSome?_cons]
  cases (flat.innermost.functions.lookup name).join <;> rfl

end Parentless

/-- One level says of variables what a chain says. -/
theorem lookupVariable_flatten (c : Context) (name : String) :
    c.flatten.lookupVariable name = c.lookupVariable name := by
  induction c using chain_induction with
  | single level =>
    rw [lookupVariable_of_parentless rfl, lookupVariable_of_parentless rfl]
    show (level.over ⟨[], []⟩).variables.lookup name = _
    rw [Level.variables_lookup_over]
    exact Option.or_none
  | child c level ih =>
    rw [lookupVariable_child, ← ih, flatten_child, lookupVariable_of_parentless rfl,
      lookupVariable_of_parentless rfl, Level.variables_lookup_over]

/-- One level says of functions what a chain says. -/
theorem lookupFunction_flatten (c : Context) (name : String) :
    c.flatten.lookupFunction name = c.lookupFunction name := by
  induction c using chain_induction with
  | single level =>
    rw [lookupFunction_of_parentless rfl, lookupFunction_of_parentless rfl]
    show ((level.over ⟨[], []⟩).functions.lookup name).join = _
    rw [Level.functions_lookup_over]
    exact Option.or_none
  | child c level ih =>
    rw [lookupFunction_child, ← ih, flatten_child, lookupFunction_of_parentless rfl,
      lookupFunction_of_parentless rfl, Level.functions_lookup_over]

theorem lookupVariable_eq_some_iff {c : Context} {name : String} {v : Value} :
    c.lookupVariable name = some v ↔ c.BindsVariable name v :=
  List.findSome?_eq_some_iff

theorem lookupFunction_eq_some_iff {c : Context} {name : String} {f : Function} :
    c.lookupFunction name = some f ↔ c.BindsFunction name f := by
  rw [lookupFunction, List.findSome?_eq_some_iff]
  simp only [BindsFunction, Option.join_eq_some_iff, Option.join_eq_none_iff]

variable {flat c : Context}

theorem IsFlatOf.lookupVariable (h : flat.IsFlatOf c) (name : String) :
    flat.lookupVariable name = c.lookupVariable name := by
  refine Option.ext fun v => ?_
  rw [lookupVariable_of_parentless h.parentless, h.variables, lookupVariable_eq_some_iff]

theorem IsFlatOf.lookupFunction (h : flat.IsFlatOf c) (name : String) :
    flat.lookupFunction name = c.lookupFunction name := by
  refine Option.ext fun f => ?_
  rw [lookupFunction_of_parentless h.parentless, Option.join_eq_some_iff, h.functions,
    lookupFunction_eq_some_iff]

/-- Every chain has a flat context. -/
theorem flatten_isFlatOf (c : Context) : c.flatten.IsFlatOf c where
  parentless := rfl
  «variables» name v := by
    rw [← lookupVariable_of_parentless rfl, lookupVariable_flatten, lookupVariable_eq_some_iff]
  functions name f := by
    rw [← Option.join_eq_some_iff, ← lookupFunction_of_parentless rfl, lookupFunction_flatten,
      lookupFunction_eq_some_iff]

end Context

end Config

namespace Expression

open Config (Context)
open Evaluation

/-- An expression sees of a context what the look-ups in it say. -/
theorem value_congr_of_lookups {text file : String} {start : Config.Pos} {e : Expression}
    (h : parse text file start interpretName = .ok (.ok e)) {c c' : Context}
    (hvariables : ∀ name, c.lookupVariable name = c'.lookupVariable name)
    (hfunctions : ∀ name, c.lookupFunction name = c'.lookupFunction name) :
    e.value (some c) = e.value (some c') := by
  obtain ⟨n, _, hraw, rfl⟩ := parse_eq_ok h
  refine value_congr (eval_congr fun m hm => ?_)
  obtain ⟨haccess, hcall⟩ := owner_of_mem_subtrees_adopt hraw hm
  cases m with
  | access owner p name =>
    obtain rfl := haccess owner p name rfl
    exact lookupOwned_congr (interpretName_congr_variables hvariables _ _)
  | call owner p function arguments =>
    obtain rfl := hcall owner p function arguments rfl
    exact callOwned_congr (hfunctions function) _
  | _ => trivial

/-- **Nested contexts are one flat context.**  Every chain of contexts has a flat one, and
in it an expression has the value and the diagnostics, or the fault, that it has in the
chain. -/
theorem value_of_isFlatOf {text file : String} {start : Config.Pos} {e : Expression}
    (h : parse text file start interpretName = .ok (.ok e)) (c : Context) :
    (∃ flat : Context, flat.IsFlatOf c) ∧
      ∀ flat : Context, flat.IsFlatOf c → e.value (some c) = e.value (some flat) := by
  refine ⟨⟨c.flatten, c.flatten_isFlatOf⟩, ?_⟩
  intro flat hflat
  exact value_congr_of_lookups h (fun name => (hflat.lookupVariable name).symm)
    fun name => (hflat.lookupFunction name).symm

/-- The expression `${shown(name)} by ${author}`. -/
private def credit : Expression :=
  ofNode (.output ⟨"", 1, 1⟩
    [.call none ⟨"", 1, 3⟩ "shown" [.access none ⟨"", 1, 9⟩ "name"],
      .literal ⟨"", 1, 15⟩ (.text " by "),
      .access none ⟨"", 1, 21⟩ "author"])
    ⟨Utf8.encode "${shown(name)} by ${author}".toList, .initial, interpretName⟩

/-- A function that gives the same text whatever it is given. -/
private def saying (s : String) : Function :=
  ⟨s, some ⟨1, some 1⟩, fun _ => .ok (.text s)⟩

/-- Three levels.  The innermost has no name and hides the one further out, and its
function hides nothing. -/
private def desk : Context :=
  let library : Context := ⟨⟨[("author", .text "Aphra")], [("shown", some (saying "out"))]⟩, []⟩
  let shelf := library.child ⟨[("name", .text "Oroonoko")], [("shown", some (saying "in"))]⟩
  shelf.child ⟨[("name", .null)], [("shown", none)]⟩

/-- The credit is the same in the three levels and in one, where the name is null and the
function is the one of the shelf. -/
theorem value_credit_desk :
    desk.flatten.BindsVariable "name" .null ∧
      desk.flatten.BindsFunction "shown" (saying "in") ∧
      credit.value (some desk) = credit.value (some desk.flatten) := by
  have hparse : parse "${shown(name)} by ${author}" "" .initial interpretName =
      .ok (.ok credit) := by with_unfolding_all rfl
  have hvalue := (value_of_isFlatOf hparse desk).2 desk.flatten desk.flatten_isFlatOf
  exact ⟨Context.lookupVariable_eq_some_iff.mp rfl, Context.lookupFunction_eq_some_iff.mp rfl,
    hvalue⟩

end Expression

end Interpolation
