/-
Adopting a tree preserves its meaning.

* `lookupOwned_agree`, `callOwned_agree` — a name means the same in a context and in
  the scope made from the context;
* `eval_adopt_agree` — so does every tree that was read from a text;
* `value_ofNode_iff` — an expression has a value exactly when the tree it was made
  from has one in that scope, and it is the same value.

Design notes: the names of a tree can be given their meaning in two ways, by a scope
that binds them or by an expression that owns them and asks a context.  `mirror` is
the scope that says what the context says.  Its functions convert arguments and
results as calls of a context's functions do, so nothing but the place of the
conversion differs.  The two evaluations agree as long as nothing is unknown; then
they pass the same settled values from step to step.
-/
import Interpolation.Proofs.Evaluation.Names
import Interpolation.Proofs.Evaluation.Operation
import Interpolation.Proofs.Expression.Reference
import Interpolation.Proofs.Expression.Value
import Interpolation.Proofs.Template.Adoption

namespace Interpolation

/-- The numbers of arguments a function takes: exactly so many, or at least so many. -/
structure Shape where
  parameters : Nat
  variadic : Bool

/-- Whether a number of arguments is accepted. -/
def Shape.accepts (s : Shape) (n : Nat) : Bool :=
  n = s.parameters || (s.parameters < n && s.variadic)

/-- A function takes the numbers of arguments that its shape says and no others:
given as many as it takes it returns or refuses, and given others it is not called
or breaks down. -/
structure Function.HasShape (f : Function) (s : Shape) : Prop where
  takes : ∀ arguments, s.accepts arguments.length = true →
    f.accepts arguments.length = true ∧
      ((∃ v, f.call arguments = .ok v) ∨
        ∃ message i, f.call arguments = .error (.refused message i))
  rejects : ∀ arguments, s.accepts arguments.length = false →
    f.accepts arguments.length = false ∨ ∃ message, f.call arguments = .error (.broken message)

/-- A function that returns or refuses does not explain its failures. -/
theorem Function.HasShape.ne_explained {f : Function} {s : Shape} (h : f.HasShape s)
    {arguments : List Value} (haccepts : f.accepts arguments.length = true)
    (ds : Config.Diagnostics) : f.call arguments ≠ .error (.explained ds) := by
  intro hcall
  by_cases hs : s.accepts arguments.length = true
  · obtain ⟨_, ⟨v, hv⟩ | ⟨message, i, hrefused⟩⟩ := h.takes arguments hs
    · cases hcall.symm.trans hv
    · cases hcall.symm.trans hrefused
  · rcases h.rejects arguments (by simpa using hs) with hrejects | ⟨message, hbroken⟩
    · cases haccepts.symm.trans hrejects
    · cases hcall.symm.trans hbroken

namespace Config.Context

/-- Nothing that a context gives is unknown, at any depth. -/
structure Settled (c : Context) : Prop where
  values : ∀ name v, c.lookupVariable name = some v → v.isSettled = true
  results : ∀ name f, c.lookupFunction name = some f →
    ∀ arguments v, f.call arguments = .ok v → v.isSettled = true

/-- What a name refers to in a context under the usual interpretation. -/
def named (c : Context) (name : String) : Option Value :=
  found ((Expression.interpretName name (.placeholder "")).value (some c))

/-- The names that a context binds to functions or to nothing. -/
def functionNames (c : Context) : List String :=
  c.levels.flatMap fun level => level.functions.map Prod.fst

theorem mem_functionNames {c : Context} {name : String} {f : Function}
    (h : c.lookupFunction name = some f) : name ∈ c.functionNames := by
  obtain ⟨level, hlevel, hf⟩ := List.exists_of_findSome?_eq_some h
  have hlookup : level.functions.lookup name = some (some f) := Option.join_eq_some_iff.mp hf
  obtain ⟨l₁, l₂, heq, _⟩ := List.lookup_eq_some_iff.mp hlookup
  refine List.mem_flatMap.mpr ⟨level, hlevel, List.mem_map.mpr ⟨(name, some f), ?_, rfl⟩⟩
  rw [heq]
  simp

end Config.Context

namespace Expression

open Config (Context found)
open Evaluation
open Template (Node)

/-! ### The scope of a context -/

/-- The function of a scope that does what a function of a context does. -/
def mirrorFunction (s : Shape) (f : Function) : ScopeFunction where
  parameters := s.parameters
  variadic := s.variadic
  returns := .any
  call arguments :=
    match f.call (arguments.map Value.toConfig) with
    | .ok v => .ok v.toTemplate
    | .error (.refused message _) => .error (.failed message)
    | .error e => .error e

/-- The names of the accesses in a tree that has no owner. -/
def accessNames (t : Node Origin) : List String :=
  t.subtrees.filterMap fun
    | .access none _ name => some name
    | _ => none

/-- The scope that gives the names of a tree the meaning they have in a context. -/
def mirror (shape : String → Shape) (c : Context) (t : Node Origin) : Scope where
  «variables» := (accessNames t).filterMap fun name =>
    (c.named name).map fun v => (name, .ofValue v.toTemplate)
  functions := c.functionNames.filterMap fun name =>
    (c.lookupFunction name).map fun f => (name, mirrorFunction (shape name) f)
  context := none

theorem lookup_filterMap {α β : Type} (g : String → Option α) (f : String → α → β)
    (names : List String) (name : String) :
    (names.filterMap fun k => (g k).map fun a => (k, f k a)).lookup name =
      if name ∈ names then (g name).map (f name) else none := by
  induction names with
  | nil => rfl
  | cons k rest ih =>
    by_cases hk : name = k
    · subst hk
      cases hg : g name with
      | none => simp [hg, ih]
      | some a => simp [hg]
    · have hne : (name == k) = false := beq_false_of_ne hk
      cases hg : g k with
      | none => simp [hg, ih, hk]
      | some a => simp [hg, ih, hk, List.lookup_cons, hne]

/-- A tree that was read from a text, and a scope that says of the names in it what a
context says. -/
structure Mirrors (shape : String → Shape) (c : Context) (scope : Scope) (n : Node Origin) :
    Prop where
  raw : n.Raw
  access : ∀ p name, .access none p name ∈ n.subtrees →
    scope.variables.lookup name = (c.named name).map fun v => .ofValue v.toTemplate
  call : ∀ name,
    scope.functions.lookup name = (c.lookupFunction name).map (mirrorFunction (shape name))

theorem Mirrors.kid {shape : String → Shape} {c : Context} {scope : Scope} {n k : Node Origin}
    (h : Mirrors shape c scope n) (hk : k ∈ n.kids) : Mirrors shape c scope k := by
  refine ⟨(Node.raw_iff.mp h.raw).2 k hk, fun p name hmem => h.access p name ?_, h.call⟩
  rw [Node.subtrees_eq]
  exact List.mem_cons_of_mem _ (List.mem_flatMap.mpr ⟨k, hk, hmem⟩)

theorem Mirrors.isRaw {shape : String → Shape} {c : Context} {scope : Scope} {n : Node Origin}
    (h : Mirrors shape c scope n) : n.isRaw = true :=
  (Node.raw_iff.mp h.raw).1

theorem mirror_mirrors (shape : String → Shape) (c : Context) {t : Node Origin} (ht : t.Raw) :
    Mirrors shape c (mirror shape c t) t := by
  refine ⟨ht, ?_, ?_⟩
  · intro p name hmem
    have hname : name ∈ accessNames t := List.mem_filterMap.mpr ⟨_, hmem, rfl⟩
    show List.lookup name (List.filterMap _ _) = _
    rw [lookup_filterMap c.named (fun _ v => Variable.ofValue v.toTemplate), if_pos hname]
  · intro name
    show List.lookup name (List.filterMap _ _) = _
    rw [lookup_filterMap c.lookupFunction (fun name => mirrorFunction (shape name))]
    split
    · rfl
    · next hname =>
      cases hf : c.lookupFunction name with
      | none => rfl
      | some f => exact absurd (Context.mem_functionNames hf) hname

/-! ### Names mean the same in both scopes -/

variable {shape : String → Shape} {c : Context} {scope : Scope} {o : Origin}

/-- A value in which nothing is left to become known. -/
private abbrev IsSettled (v : Value) : Prop :=
  v.isSettled = true

theorem isSettled_of_step {step : Config.Step} (hstep : isSegment step = true) {v w : Value}
    (hv : v.isSettled = true) (h : found (step.apply v) = some w) : w.isSettled = true := by
  unfold isSegment at hstep
  split at hstep
  · cases h
  · rcases Config.found_index_cases h with
      ⟨hdynamic | hdynamic, _⟩ | ⟨items, i, hitems, _, hw⟩ | ⟨entries, s, rfl, _, hw⟩
    · exact absurd hv (by simp [hdynamic, Value.isSettled])
    · cases hdynamic
    · unfold Config.item? at hw
      split at hw
      · exact Value.isSettled_of_getElem? hv hitems hw
      · cases hw
    · exact Value.isSettled_of_find? hv hw
  · cases hstep

theorem isSettled_of_walk {steps : List Config.Step}
    (hsteps : ∀ step ∈ steps, isSegment step = true) {v w : Value} (hv : v.isSettled = true)
    (h : found (Config.Traversal.apply steps v) = some w) : w.isSettled = true := by
  induction steps generalizing v with
  | nil =>
    cases h
    exact hv
  | cons step rest ih =>
    obtain ⟨hstep, hrest⟩ := List.forall_mem_cons.mp hsteps
    rw [Config.Traversal.found_apply_cons] at h
    obtain ⟨u, hu, h⟩ := Option.bind_eq_some_iff.mp h
    exact ih hrest (isSettled_of_step hstep hv hu) h

theorem isSettled_of_named (hc : c.Settled) {name : String} {v : Value}
    (h : c.named name = some v) : v.isSettled = true := by
  unfold Context.named interpretName Reference.ofName at h
  rw [found_lookup] at h
  cases ht : traversalOf name (.placeholder "") with
  | error e =>
    rw [ht] at h
    cases e <;> cases h
  | ok t =>
    rw [ht] at h
    -- behind its root a name has nothing but keys, which lead to parts of the variable
    obtain ⟨_, hrest⟩ := List.forall_mem_cons.mp (traversalOf_isSegment ht)
    obtain ⟨first, rest⟩ := t
    cases first with
    | root root range =>
      cases hroot : c.lookupVariable root with
      | none =>
        simp [Reference.value, Config.Traversal.value, hroot] at h
      | some u =>
        simp only [Reference.value, Config.Traversal.value, hroot] at h
        exact isSettled_of_walk hrest (hc.values root u hroot) h
    | _ => cases h

theorem lookupOwned_agree (hc : c.Settled) (ho : o.interpret = interpretName)
    (p : Template.Pos) {name : String}
    (hname : scope.variables.lookup name = (c.named name).map fun v => .ofValue v.toTemplate) :
    Eval.Agree IsSettled (lookupOwned (.ofContext (some c)) o p name)
      (Eval.ofExcept (lookupFree scope name)) := by
  have hfound : found ((o.lookup p name).value (some c)) = c.named name := by
    rw [Origin.lookup, ho]
    exact found_interpretName name _ _ _
  unfold lookupFree Scope.findVariable
  rw [hname]
  cases hv : c.named name with
  | none =>
    obtain ⟨e, he⟩ := lookupOwned_of_not_found (hfound.trans hv)
    rw [he]
    exact .fail _ _
  | some v =>
    have hterse : Config.Terse ((o.lookup p name).value (some c)) := by
      rw [Origin.lookup, ho]
      exact interpretName_terse name _ _
    rw [lookupOwned_of_found hterse (hfound.trans hv)]
    exact .give ((Value.isSettled_toTemplate v).trans (isSettled_of_named hc hv))

theorem callOwned_agree (hc : c.Settled) {name : String} {f : Function}
    (hf : c.lookupFunction name = some f) (hshape : f.HasShape (shape name))
    (p : Template.Pos) (places : List Template.Pos) {values : List Value}
    (hvalues : ∀ v ∈ values, v.isSettled = true) :
    Eval.Agree IsSettled (Eval.ofExcept (callOwned (.ofContext (some c)) o p name places values))
      (Eval.ofExcept (callFree name (mirrorFunction (shape name) f) values)) := by
  have hall : values.all Value.isSettled = true := List.all_eq_true.mpr hvalues
  have hlength : (values.map Value.toConfig).length = values.length := List.length_map _
  have haccepts : (mirrorFunction (shape name) f).accepts values.length =
      (shape name).accepts values.length := rfl
  rw [callOwned_of_lookup rfl hf, callFree, haccepts, Value.any_isUnknown_of_settled hvalues, hall]
  -- The context asks the function whether it takes so many, the scope asks its shape.
  cases hs : (shape name).accepts values.length with
  | true =>
    obtain ⟨ht, hcall⟩ := hshape.takes (values.map Value.toConfig) (by rw [hlength, hs])
    rw [hlength] at ht
    rcases hcall with ⟨v, hv⟩ | ⟨message, i, hrefused⟩
    · have hsettled := (Value.isSettled_toTemplate v).trans (hc.results name f hf _ v hv)
      simp only [ht, mirrorFunction, hv]
      exact .give hsettled
    · simp only [ht, mirrorFunction, hrefused]
      exact .fail _ _
  | false =>
    rcases hshape.rejects (values.map Value.toConfig) (by rw [hlength, hs]) with
      hrejects | ⟨message, hbroken⟩
    · rw [hlength] at hrejects
      simp only [hrejects]
      exact .fail _ _
    · simp only [hbroken]
      cases f.accepts values.length <;> exact .fail _ _

/-! ### The simulation -/

theorem evalAll_agree {s s' : Scope} {nodes : List (Node Origin)}
    (h : ∀ k ∈ nodes, Eval.Agree IsSettled (eval s (k.adopt o)) (eval s' k)) :
    Eval.Agree (fun values => ∀ v ∈ values, IsSettled v) (evalAll s (nodes.map (Node.adopt o)))
      (evalAll s' nodes) := by
  induction nodes with
  | nil =>
    rw [List.map_nil, evalAll_nil, evalAll_nil]
    exact .give (by simp)
  | cons k rest ih =>
    obtain ⟨hk, hrest⟩ := List.forall_mem_cons.mp h
    rw [List.map_cons, evalAll_cons, evalAll_cons]
    refine hk.bind fun v hv => (ih hrest).bind fun values hvalues => .give ?_
    exact List.forall_mem_cons.mpr ⟨hv, hvalues⟩

/-- **A tree means the same in the hands of an expression as it does in the scope
that mirrors the context.** -/
theorem eval_adopt_agree (hc : c.Settled) (ho : o.interpret = interpretName)
    (hshape : ∀ name f, c.lookupFunction name = some f → f.HasShape (shape name))
    (n : Node Origin) (hn : Mirrors shape c scope n) :
    Eval.Agree IsSettled (eval (.ofContext (some c)) (n.adopt o)) (eval scope n) := by
  induction n with
  | bare pos kids => cases hn.isRaw
  | output pos parts ih =>
    rw [Node.adopt_output, eval, eval]
    exact (evalAll_agree fun k hk => ih k hk (hn.kid hk)).bind fun values hvalues =>
      .ofExcept fun u hu => joinParts_settled hvalues hu
  | literal pos value =>
    rw [Node.adopt_literal, eval, eval]
    exact .give (Value.isSettled_of_isAtom (Template.isAtom_of_isLiteral hn.isRaw))
  | access owner pos name =>
    cases owner with
    | some o' => cases hn.isRaw
    | none =>
      rw [Node.adopt_access, eval]
      exact lookupOwned_agree hc ho pos (hn.access pos name (by simp [Node.subtrees]))
  | call owner pos function arguments ih =>
    cases owner with
    | some o' => cases hn.isRaw
    | none =>
      have harguments := evalAll_agree fun k hk => ih k hk (hn.kid hk)
      rw [Node.adopt_call, Option.none_or, eval, eval, Scope.findFunction, hn.call]
      -- The scope looks the function up first and the context last, so a function that
      -- is missing fails on both sides, whatever the arguments do.
      cases hf : c.lookupFunction function with
      | none =>
        refine harguments.bind_fail (fun values => ?_) _
        exact ⟨_, congrArg Eval.ofExcept (callOwned_of_no_function rfl hf)⟩
      | some f =>
        exact harguments.bind fun values hvalues =>
          callOwned_agree hc hf (hshape function f hf) pos _ hvalues
  | unary pos op operand ih =>
    have hoperand := ih (hn.kid (by simp [Node.kids]))
    rw [Node.adopt_unary, eval, eval]
    exact hoperand.bind fun v hv => .ofExcept fun u hu => applyUnary_settled hv hu
  | binary pos op left right ihl ihr =>
    have hleft := ihl (hn.kid (by simp [Node.kids]))
    have hright := ihr (hn.kid (by simp [Node.kids]))
    rw [Node.adopt_binary, eval, eval]
    refine hleft.bind fun v hv => ?_
    split
    -- settled, the first operand decides the same on both sides, so the second is
    -- evaluated on both or on neither
    · have hfirst : Eval.Agree (fun decided => ∀ u, decided = some u → IsSettled u)
          (Eval.ofExcept (firstDecides op v)) (Eval.ofExcept (firstDecides op v)) :=
        .ofExcept fun decided hd u hu => firstDecides_settled hv (hu ▸ hd)
      refine hfirst.bind fun decided hdecided => ?_
      cases decided with
      | some u => exact .give (hdecided u rfl)
      | none => exact hright.bind fun w hw => .ofExcept fun u hu => secondDecides_settled hw hu
    · exact hright.bind fun w hw => .ofExcept fun u hu => applyBinary_settled hv hw hu
  | conditional pos condition yes no ihc ihy ihn =>
    have hcondition := ihc (hn.kid (by simp [Node.kids]))
    have hyes := ihy (hn.kid (by simp [Node.kids]))
    have hno := ihn (hn.kid (by simp [Node.kids]))
    rw [Node.adopt_conditional, eval, eval]
    refine hcondition.bind fun v hv => ?_
    have hchoice : Eval.Agree (· ≠ none) (Eval.ofExcept (chooses v)) (Eval.ofExcept (chooses v)) :=
      .ofExcept fun choice hd hnone => chooses_ne_none hv (hnone ▸ hd)
    refine hchoice.bind fun choice hne => ?_
    -- a settled condition chooses, and only the branch it chooses is looked at
    cases choice with
    | none => exact absurd rfl hne
    | some b => cases b <;> assumption
  | index pos target key iht ihk =>
    have htarget := iht (hn.kid (by simp [Node.kids]))
    have hkey := ihk (hn.kid (by simp [Node.kids]))
    rw [Node.adopt_index, eval, eval]
    exact htarget.bind fun v hv => hkey.bind fun w hw =>
      .ofExcept fun u hu => applyIndex_settled hv hw hu

/-- Functions that return or refuse leave nothing to be explained. -/
theorem not_explainedIn_adopt {n : Node Origin} (hn : n.Raw) (ho : o.interpret = interpretName)
    (hshape : ∀ name f, c.lookupFunction name = some f → f.HasShape (shape name))
    (ds : Config.Diagnostics) : ¬ExplainedIn (.ofContext (some c)) (n.adopt o) ds := by
  intro h
  obtain ⟨name, f, arguments, hf, haccepts, hcall⟩ :=
    (h.callExplainsIn (isUsual_adopt hn ho)).exists_function
  exact (hshape name f hf).ne_explained haccepts ds hcall

/-- **Rewriting preserves meaning.** An expression made from a tree that was read from
a text has a value without an error in a context exactly when the tree has one in
the scope that mirrors the context, and it is the same value. -/
theorem value_ofNode_iff {text : String} {start : Template.Pos} {t : Node Origin}
    (ht : Template.parse text start = .ok t) {c : Context} (hc : c.Settled)
    {shape : String → Shape}
    (hshape : ∀ name f, c.lookupFunction name = some f → f.HasShape (shape name))
    (source : Bytes) (position : Config.Pos) (w : Value) :
    (∃ ds, (ofNode t ⟨source, position, interpretName⟩).value (some c) = .ok ⟨w, ds⟩ ∧
        Config.hasErrors ds = false) ↔
      ∃ v ws, evaluate (mirror shape c t) t = .ok (v, ws) ∧ v.toConfig = w := by
  have hagree : Eval.Agree IsSettled
      (eval (.ofContext (some c)) (t.adopt ⟨source, position, interpretName⟩))
      (eval (mirror shape c t) t) :=
    eval_adopt_agree hc rfl hshape t (mirror_mirrors shape c (Template.parse_raw ht))
  rw [evaluate_eq_eval]
  constructor
  · rintro ⟨ds, hvalue, hds⟩
    have hunexplained := not_explainedIn_adopt (Template.parse_raw ht)
      (o := ⟨source, position, interpretName⟩) rfl hshape ds
    obtain ⟨v, hv, hw⟩ := (value_eq_ok_iff hds fun _ => hunexplained).mp hvalue
    obtain rfl := hagree.warnings hv
    obtain ⟨ws, hv'⟩ := (hagree.gives_iff [] v).mp hv
    exact ⟨v, ws, hv', hw⟩
  · rintro ⟨v, ws, hv, hw⟩
    have hv' := (hagree.gives_iff [] v).mpr ⟨ws, hv⟩
    exact ⟨[], hw ▸ value_of_eval hv', rfl⟩

/-- A function of one text that adds an exclamation mark to it. -/
private def shout : Function where
  name := "shout"
  arity := some ⟨1, some 1⟩
  call
    | [.text s] => .ok (.text (s ++ "!"))
    | _ => .error (.refused "a text is required" (some 0))

/-- A context with a map and a function. -/
private def greeting : Context :=
  ⟨⟨[("a", .map [("b", .text "ho")])], [("shout", some shout)]⟩, []⟩

/-- The tree of `Hey ${shout(a.b)}`. -/
private def greetingTree : Node Origin :=
  .output ⟨"", 1, 1⟩ [.literal ⟨"", 1, 1⟩ (.text "Hey "),
    .call none ⟨"", 1, 7⟩ "shout" [.access none ⟨"", 1, 13⟩ "a.b"]]

private theorem greeting_lookupVariable (name : String) :
    greeting.lookupVariable name =
      if name = "a" then some (.map [("b", .text "ho")]) else none := by
  by_cases h : name = "a"
  · simp [greeting, Context.lookupVariable, Context.levels, h]
  · simp [greeting, Context.lookupVariable, Context.levels, List.lookup_cons, beq_false_of_ne h, h]

private theorem greeting_lookupFunction (name : String) :
    greeting.lookupFunction name = if name = "shout" then some shout else none := by
  by_cases h : name = "shout"
  · simp [greeting, Context.lookupFunction, Context.levels, h]
  · simp [greeting, Context.lookupFunction, Context.levels, List.lookup_cons, beq_false_of_ne h, h]

private theorem greeting_settled : greeting.Settled := by
  constructor
  · intro name v h
    rw [greeting_lookupVariable] at h
    split at h
    · cases h
      rfl
    · cases h
  · intro name f h arguments v hv
    rw [greeting_lookupFunction] at h
    split at h
    · cases h
      unfold shout at hv
      dsimp only at hv
      split at hv
      · cases hv
        rfl
      · cases hv
    · cases h

private theorem shout_shape : shout.HasShape ⟨1, false⟩ := by
  constructor
  · intro arguments h
    have hlength : arguments.length = 1 := by simpa [Shape.accepts] using h
    refine ⟨by rw [hlength]; rfl, ?_⟩
    unfold shout
    dsimp only
    split
    · exact .inl ⟨_, rfl⟩
    · exact .inr ⟨_, _, rfl⟩
  · intro arguments h
    have hlength : arguments.length ≠ 1 := by simpa [Shape.accepts] using h
    refine .inl ?_
    simp only [Function.accepts, shout, Arity.accepts, Bool.and_eq_false_iff,
      decide_eq_false_iff_not]
    omega

/-- The template `Hey ${shout(a.b)}` has the same value in both scopes. -/
theorem value_ofNode_greeting :
    ∃ ds, (ofNode greetingTree ⟨[], .initial, interpretName⟩).value (some greeting) =
        .ok ⟨.text "Hey ho!", ds⟩ ∧ Config.hasErrors ds = false := by
  have hparse : Template.parse "Hey ${shout(a.b)}" ⟨"", 1, 1⟩ = .ok greetingTree := by
    with_unfolding_all rfl
  have hshape : ∀ name f, greeting.lookupFunction name = some f →
      f.HasShape ((fun _ => ⟨1, false⟩ : String → Shape) name) := by
    intro name f h
    rw [greeting_lookupFunction] at h
    split at h
    · cases h
      exact shout_shape
    · cases h
  exact (value_ofNode_iff hparse greeting_settled hshape [] .initial (.text "Hey ho!")).mpr
    ⟨.text "Hey ho!", [], by with_unfolding_all rfl, rfl⟩

end Expression

end Interpolation
