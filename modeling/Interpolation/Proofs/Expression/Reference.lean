/-
What names refer to, wherever they are written.

* `gather_mapRange` — gathering the steps of a name moves their ranges along;
* `scan_bytes` — the tokens of a scan do not depend on where it begins;
* `traversalOf_isSegment` — a name leads from a root along keys that are text;
* `found_interpretName` — what a name refers to under the usual interpretation does
  not depend on where it is written;
* `interpretName_congr` — it depends on nothing but the paths it reports.
-/
import Interpolation.Expression.Reference
import Interpolation.Proofs.Config.Traversal

namespace Interpolation

namespace Config

/-- A token with its range changed. -/
def Token.mapRange (g : Range → Range) (t : Token) : Token :=
  ⟨t.bytes, g t.range⟩

@[simp] theorem Token.mapRange_bytes (g : Range → Range) (t : Token) :
    (t.mapRange g).bytes = t.bytes := rfl

theorem scan_bytes (split : Splitter) (file file' : String) (pos pos' : Pos) (bytes : Bytes) :
    (scan split file pos bytes).tokens.map Token.bytes =
      (scan split file' pos' bytes).tokens.map Token.bytes := by
  fun_induction scan split file pos bytes generalizing pos' with
  | case1 pos => simp
  | case2 pos b rest h => rw [scan_stalled _ _ _ (by simp) h]
  | case3 pos b rest h used token more ih =>
    rw [scan_cons _ _ _ (by simp) h]
    exact congrArg (token :: ·) (ih _)

end Config

namespace Expression

open Config

/-- The reason why a name is no path, with its range changed. -/
def NameError.mapRange (g : Range → Range) : NameError → NameError
  | .empty => .empty
  | .emptySegment dot => .emptySegment (g dot)

theorem stepOf_mapRange (g : Range → Range) (isFirst : Bool) (token : Token) :
    stepOf isFirst (token.mapRange g) = (stepOf isFirst token).mapRange g := by
  cases isFirst <;> rfl

theorem gather_mapRange (g : Range → Range) (steps : List Step) (separator : Option Range)
    (tokens : List Token) :
    gather (steps.map (Step.mapRange g)) (separator.map g) (tokens.map (Token.mapRange g)) =
      match gather steps separator tokens with
      | .ok found => .ok (found.map (Step.mapRange g))
      | .error e => .error (e.mapRange g) := by
  fun_induction gather steps separator tokens with
  | case1 steps dot => rfl
  | case2 steps => rfl
  | case3 steps separator token rest hdot h =>
    rw [List.map_cons, gather, Token.mapRange_bytes, if_pos hdot, if_pos (by simpa using h)]
    rfl
  | case4 steps separator token rest hdot h ih =>
    rw [List.map_cons, gather, Token.mapRange_bytes, if_pos hdot, if_neg (by simpa using h)]
    exact ih
  | case5 steps separator token rest hdot ih =>
    rw [List.map_cons, gather, Token.mapRange_bytes, if_neg hdot, stepOf_mapRange]
    simpa using ih

/-- The same range for everything, for paths that are compared wherever they are
written. -/
def nowhere : Range → Range :=
  fun _ => .placeholder ""

theorem map_nowhere (tokens : List Token) :
    tokens.map (Token.mapRange nowhere) =
      (tokens.map Token.bytes).map fun bytes => ⟨bytes, .placeholder ""⟩ := by
  rw [List.map_map]
  rfl

/-- The tokens of a name that is written somewhere. -/
private abbrev tokensOf (name : String) (range : Range) : List Token :=
  (scan splitStep range.file range.start (Utf8.encode name.toList)).tokens

theorem traversalOf_eq (name : String) (range : Range) :
    traversalOf name range =
      match gather [] none (tokensOf name range) with
      | .error e => .error e
      | .ok [] => .error .empty
      | .ok (first :: rest) => .ok ⟨first, rest⟩ := by
  simp only [traversalOf, tokensOf]
  cases gather [] none (scan splitStep range.file range.start (Utf8.encode name.toList)).tokens with
  | error e => rfl
  | ok steps => cases steps <;> rfl

/-- Whether a name can give a step: the root, or a key that is text. -/
def isSegment : Step → Bool
  | .root .. | .index (.text _) _ => true
  | _ => false

/-- What holds of the steps gathered so far and of the steps of all tokens holds of all
steps of a name. -/
theorem forall_mem_gather {P : Step → Prop} {steps path : List Step} {separator : Option Range}
    {tokens : List Token} (hsteps : ∀ step ∈ steps, P step)
    (htokens : ∀ token ∈ tokens, ∀ isFirst, P (stepOf isFirst token))
    (h : gather steps separator tokens = .ok path) : ∀ step ∈ path, P step := by
  fun_induction gather steps separator tokens with
  | case1 steps dot => cases h
  | case2 steps =>
    cases h
    exact hsteps
  | case3 => cases h
  | case4 steps separator token rest hdot hseparator ih =>
    exact ih hsteps (List.forall_mem_cons.mp htokens).2 h
  | case5 steps separator token rest hdot ih =>
    obtain ⟨htoken, hrest⟩ := List.forall_mem_cons.mp htokens
    refine ih (List.forall_mem_append.mpr ⟨hsteps, ?_⟩) hrest h
    exact List.forall_mem_singleton.mpr (htoken _)

theorem gather_isSegment {path : List Step} {tokens : List Token}
    (h : gather [] none tokens = .ok path) : ∀ step ∈ path, isSegment step = true := by
  refine forall_mem_gather (by simp) (fun token _ isFirst => ?_) h
  cases isFirst <;> rfl

/-- The steps of a name are a root and keys that are text. -/
theorem traversalOf_isSegment {name : String} {range : Range} {t : Traversal}
    (h : traversalOf name range = .ok t) : ∀ step ∈ t.steps, isSegment step = true := by
  rw [traversalOf_eq] at h
  cases hg : gather [] none (tokensOf name range) with
  | error e => simp [hg] at h
  | ok steps =>
    have hsteps := gather_isSegment hg
    cases steps with
    | nil => simp [hg] at h
    | cons first rest =>
      simp only [hg, Except.ok.injEq] at h
      cases h
      exact hsteps

/-- A name is a path wherever it is written, and the same path, or it is none. -/
theorem traversalOf_cases (name : String) (range range' : Range) :
    (∃ t t', traversalOf name range = .ok t ∧ traversalOf name range' = .ok t' ∧
        t.mapRange nowhere = t'.mapRange nowhere) ∨
      ∃ e e', traversalOf name range = .error e ∧ traversalOf name range' = .error e' := by
  have h := gather_mapRange nowhere [] none (tokensOf name range)
  rw [map_nowhere, scan_bytes _ _ range'.file _ range'.start, ← map_nowhere,
    gather_mapRange nowhere [] none (tokensOf name range')] at h
  rw [traversalOf_eq, traversalOf_eq]
  cases hs : gather [] none (tokensOf name range) with
  | error e =>
    cases hs' : gather [] none (tokensOf name range') with
    | error e' => exact .inr ⟨e, e', rfl, rfl⟩
    | ok steps' => simp [hs, hs'] at h
  | ok steps =>
    cases hs' : gather [] none (tokensOf name range') with
    | error e' => simp [hs, hs'] at h
    | ok steps' =>
      simp only [hs, hs', Except.ok.injEq] at h
      cases steps with
      | nil =>
        obtain rfl : steps' = [] := by simpa using h
        exact .inr ⟨_, _, rfl, rfl⟩
      | cons first rest =>
        cases steps' with
        | nil => simp at h
        | cons first' rest' =>
          obtain ⟨hfirst, hrest⟩ := List.cons.inj h
          refine .inl ⟨_, _, rfl, rfl, ?_⟩
          simp only [Traversal.mapRange, hfirst, hrest]

theorem found_lookup (r : Reference) (context : Option Context) :
    found (r.lookup.value context) = found (r.value context) :=
  found_mapError _ _

/-- **What a name refers to does not depend on where it is written.** -/
theorem found_interpretName (name : String) (range range' : Range) (context : Option Context) :
    found ((interpretName name range).value context) =
      found ((interpretName name range').value context) := by
  unfold interpretName Reference.ofName
  rw [found_lookup, found_lookup]
  rcases traversalOf_cases name range range' with ⟨t, t', ht, ht', h⟩ | ⟨e, e', he, he'⟩
  · rw [ht, ht']
    show found (t.value context) = found (t'.value context)
    rw [← Traversal.found_value_mapRange nowhere t, h, Traversal.found_value_mapRange]
  · rw [he, he']
    cases e <;> cases e' <;> rfl

/-- A name that refers to something has nothing to report, and one that does not has a
single error. -/
theorem interpretName_terse (name : String) (range : Range) (context : Option Context) :
    Terse ((interpretName name range).value context) := by
  unfold interpretName Reference.ofName
  cases traversalOf name range with
  | ok t => exact (t.value_terse context).mapError _
  | error e =>
    cases e with
    | empty => exact Config.terse_ofError _ _ _
    | emptySegment dot => exact Config.terse_ofError _ _ _

/-- A name depends on nothing but the paths it reports. -/
theorem interpretName_congr {name : String} {range : Range} {context context' : Option Context}
    (h : ∀ t ∈ (interpretName name range).variables, t.value context = t.value context') :
    (interpretName name range).value context = (interpretName name range).value context' := by
  unfold interpretName Reference.ofName at h ⊢
  cases ht : traversalOf name range with
  | ok t =>
    rw [ht] at h
    exact congrArg (Except.mapError _) (h t (List.mem_singleton_self t))
  | error e => rfl

/-- The usual interpretation does not fail with an evaluation error. -/
theorem interpretName_ne_error (name : String) (range : Range) (context : Option Context)
    (e : EvalError) : (interpretName name range).value context ≠ .error (.error e) := by
  intro h
  change ((Reference.ofName name range).value context).mapError LookupFailure.fault = _ at h
  cases hvalue : (Reference.ofName name range).value context with
  | ok r => rw [hvalue] at h; cases h
  | error f => rw [hvalue] at h; cases h

end Expression

end Interpolation
