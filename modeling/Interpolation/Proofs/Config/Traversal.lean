/-
What a walk along a path finds.

* `index_cases` — a look-up gives a value or a single error or breaks down, and the
  range it is told has no say in which;
* `found_index_cases` — what a look-up finds is part of what it looked at, unless that
  was unknown;
* `found_value_mapRange` — what a path leads to does not depend on where it is written;
* `value_terse` — a path that leads somewhere has nothing to report, and one that does
  not has a single error.

Design notes: `found` is the value a look-up gives without an error, and forgets
what was reported otherwise, and how the look-up broke down if it did.  Ranges only
ever go into reports, so a path may have its ranges changed (`Traversal.mapRange`)
without changing what is found.
-/
import Interpolation.Config.Traversal

namespace Interpolation.Config

section

variable {ε δ : Type}

/-- The value that a look-up gives without an error, if it does. -/
def found : Except ε Result → Option Value
  | .ok r => if hasErrors r.diagnostics then none else some r.value
  | .error _ => none

/-- A look-up that reports nothing unless it fails, and then a single error. -/
def Terse (r : Except ε Result) : Prop :=
  ∀ res, r = .ok res →
    (∃ summary detail subject, res = .ofError summary detail subject) ∨ res.diagnostics = []

@[simp] theorem found_ofValue (v : Value) :
    found (.ok (.ofValue v) : Except ε Result) = some v := rfl

@[simp] theorem found_ofError (summary detail : String) (subject : Option Range) :
    found (.ok (.ofError summary detail subject) : Except ε Result) = none := rfl

@[simp] theorem found_error (e : ε) : found (.error e) = none := rfl

@[simp] theorem found_mapError (f : ε → δ) (r : Except ε Result) :
    found (r.mapError f) = found r := by
  cases r <;> rfl

theorem terse_ofValue (v : Value) : Terse (.ok (.ofValue v) : Except ε Result) := by
  rintro res ⟨⟩
  exact .inr rfl

theorem terse_ofError (summary detail : String) (subject : Option Range) :
    Terse (.ok (.ofError summary detail subject) : Except ε Result) := by
  rintro res ⟨⟩
  exact .inl ⟨summary, detail, subject, rfl⟩

theorem terse_error (e : ε) : Terse (.error e) := nofun

theorem Terse.mapError {r : Except ε Result} (h : Terse r) (f : ε → δ) :
    Terse (r.mapError f) := by
  cases r with
  | error e => exact terse_error (f e)
  | ok res =>
    rintro _ ⟨⟩
    exact h res rfl

/-- What a terse look-up found is all it gives. -/
theorem Terse.eq_ofValue {r : Except ε Result} (h : Terse r) {v : Value}
    (hv : found r = some v) : r = .ok (.ofValue v) := by
  cases r with
  | error f => cases hv
  | ok res =>
    obtain ⟨value, diagnostics⟩ := res
    rw [found] at hv
    split at hv
    · cases hv
    · next hd =>
      cases hv
      rcases h _ rfl with ⟨summary, detail, subject, he⟩ | rfl
      · cases he
        exact absurd rfl hd
      · rfl

end

/-! ### One element -/

theorem indexItems_cases (items : List Value) (key : Value) :
    (∃ v, ∀ subject, indexItems items key subject = .ok (.ofValue v)) ∨
      (∃ summary detail, ∀ subject,
        indexItems items key subject = .ok (.ofError summary detail subject)) ∨
      ∃ f, ∀ subject, indexItems items key subject = .error f := by
  unfold indexItems
  cases hp : position? key with
  | error f => exact .inr (.inr ⟨f, fun subject => rfl⟩)
  | ok position =>
    cases position with
    | none => exact .inr (.inl ⟨_, _, fun subject => rfl⟩)
    | some i =>
      simp only [bind, Except.bind]
      cases hi : item? items i with
      | some v => exact .inl ⟨v, fun subject => rfl⟩
      | none =>
        cases hs : Digits.text? i with
        | none => exact .inr (.inr ⟨_, fun subject => rfl⟩)
        | some shown => exact .inr (.inl ⟨_, _, fun subject => rfl⟩)

theorem indexEntries_cases (entries : List (String × Value)) (key : Value) :
    (∃ v, ∀ subject, indexEntries entries key subject = .ofValue v) ∨
      ∃ summary detail, ∀ subject,
        indexEntries entries key subject = .ofError summary detail subject := by
  cases key with
  | text s =>
    simp only [indexEntries]
    cases hs : Value.find? s entries with
    | some v => exact .inl ⟨v, fun subject => rfl⟩
    | none => exact .inr ⟨_, _, fun subject => rfl⟩
  | _ => exact .inr ⟨_, _, fun subject => rfl⟩

/-- A look-up gives a value, or one error about the place it was given, or breaks
down; which one does not depend on the place. -/
theorem index_cases (collection key : Value) :
    (∃ v, ∀ subject, index collection key subject = .ok (.ofValue v)) ∨
      (∃ summary detail, ∀ subject,
        index collection key subject = .ok (.ofError summary detail subject)) ∨
      ∃ f, ∀ subject, index collection key subject = .error f := by
  unfold index
  split
  · exact .inl ⟨_, fun subject => rfl⟩
  · exact .inl ⟨_, fun subject => rfl⟩
  · exact .inr (.inl ⟨_, _, fun subject => rfl⟩)
  · next entries _ =>
    rcases indexEntries_cases entries key with ⟨v, h⟩ | ⟨summary, detail, h⟩
    · exact .inl ⟨v, fun subject => congrArg _ (h subject)⟩
    · exact .inr (.inl ⟨summary, detail, fun subject => congrArg _ (h subject)⟩)
  · next items _ => exact indexItems_cases items key
  · next items _ => exact indexItems_cases items key
  · exact .inr (.inl ⟨_, _, fun subject => rfl⟩)

theorem found_index (collection key : Value) (subject subject' : Option Range) :
    found (index collection key subject) = found (index collection key subject') := by
  rcases index_cases collection key with ⟨v, h⟩ | ⟨summary, detail, h⟩ | ⟨f, h⟩
  · rw [h, h]
  · rw [h, h, found_ofError, found_ofError]
  · rw [h, h]

theorem index_terse (collection key : Value) (subject : Option Range) :
    Terse (index collection key subject) := by
  rcases index_cases collection key with ⟨v, h⟩ | ⟨summary, detail, h⟩ | ⟨f, h⟩
  · rw [h]
    exact terse_ofValue v
  · rw [h]
    exact terse_ofError summary detail subject
  · rw [h]
    exact terse_error f

theorem found_indexItems_iff {items : List Value} {key v : Value} {subject : Option Range} :
    found (indexItems items key subject) = some v ↔
      ∃ i, position? key = .ok (some i) ∧ item? items i = some v := by
  unfold indexItems
  cases hp : position? key with
  | error f => simp [bind, Except.bind]
  | ok position =>
    cases position with
    | none => simp [bind, Except.bind, pure, Except.pure]
    | some i =>
      simp only [bind, Except.bind, Except.ok.injEq, Option.some.injEq, exists_eq_left']
      cases hi : item? items i with
      | some w => simp [pure, Except.pure]
      | none =>
        cases hs : Digits.text? i with
        | none => simp [throw, throwThe, MonadExceptOf.throw]
        | some shown => simp [pure, Except.pure]

theorem found_indexEntries_iff {entries : List (String × Value)} {key v : Value}
    {subject : Option Range} :
    found (.ok (indexEntries entries key subject) : Except Fault Result) = some v ↔
      ∃ s, key = .text s ∧ Value.find? s entries = some v := by
  cases key with
  | text s =>
    simp only [indexEntries, Value.text.injEq, exists_eq_left']
    cases hs : Value.find? s entries with
    | some w => simp
    | none => simp
  | _ => simp [indexEntries]

/-- What a look-up finds is unknown as something it looked at was, or an item, or an
entry. -/
theorem found_index_cases {collection key v : Value} {subject : Option Range}
    (h : found (index collection key subject) = some v) :
    ((collection = .dynamic ∨ key = .dynamic) ∧ v = .dynamic) ∨
      (∃ items i, (collection = .list items ∨ collection = .tuple items) ∧
        position? key = .ok (some i) ∧ item? items i = some v) ∨
      ∃ entries s, collection = .map entries ∧ key = .text s ∧
        Value.find? s entries = some v := by
  unfold index at h
  split at h
  · cases h
    exact .inl ⟨.inl rfl, rfl⟩
  · cases h
    exact .inl ⟨.inr rfl, rfl⟩
  · cases h
  · next entries _ =>
    obtain ⟨s, hkey, hv⟩ := found_indexEntries_iff.mp h
    exact .inr (.inr ⟨entries, s, rfl, hkey, hv⟩)
  · next items _ =>
    obtain ⟨i, hi, hv⟩ := found_indexItems_iff.mp h
    exact .inr (.inl ⟨items, i, .inl rfl, hi, hv⟩)
  · next items _ =>
    obtain ⟨i, hi, hv⟩ := found_indexItems_iff.mp h
    exact .inr (.inl ⟨items, i, .inr rfl, hi, hv⟩)
  · cases h

/-! ### Steps and walks -/

/-- A step with its range changed. -/
def Step.mapRange (g : Range → Range) : Step → Step
  | .root name range => .root name (g range)
  | .attribute name range => .attribute name (g range)
  | .index key range => .index key (g range)

/-- A path with its ranges changed. -/
def Traversal.mapRange (g : Range → Range) (t : Traversal) : Traversal :=
  ⟨t.first.mapRange g, t.rest.map (Step.mapRange g)⟩

theorem Step.found_apply_mapRange (g : Range → Range) (step : Step) (v : Value) :
    found ((step.mapRange g).apply v) = found (step.apply v) := by
  cases step with
  | root name range => rfl
  | _ => exact found_index _ _ _ _

theorem Step.apply_terse (step : Step) (v : Value) : Terse (step.apply v) := by
  cases step with
  | root name range => exact terse_error _
  | _ => exact index_terse _ _ _

namespace Traversal

/-- A walk goes on from what its first step finds. -/
theorem found_apply_cons (step : Step) (rest : List Step) (v : Value) :
    found (apply (step :: rest) v) = (found (step.apply v)).bind fun w => found (apply rest w) := by
  rw [apply]
  cases hs : step.apply v with
  | error f => rfl
  | ok res =>
    show found (if hasErrors res.diagnostics then _ else _) = _
    rw [found]
    by_cases he : hasErrors res.diagnostics = true
    · simp [he, found, pure, Except.pure]
    · simp [he]

theorem found_apply_mapRange (g : Range → Range) (steps : List Step) (v : Value) :
    found (apply (steps.map (Step.mapRange g)) v) = found (apply steps v) := by
  induction steps generalizing v with
  | nil => rfl
  | cons step rest ih =>
    rw [List.map_cons, found_apply_cons, found_apply_cons, Step.found_apply_mapRange]
    exact congrArg _ (funext ih)

theorem apply_terse (steps : List Step) (v : Value) : Terse (apply steps v) := by
  induction steps generalizing v with
  | nil => exact terse_ofValue v
  | cons step rest ih =>
    rw [apply]
    cases hs : step.apply v with
    | error f => exact terse_error f
    | ok res =>
      show Terse (if hasErrors res.diagnostics then _ else _)
      split
      · next he =>
        rcases step.apply_terse v res hs with ⟨summary, detail, subject, rfl⟩ | hnone
        · exact terse_ofError summary detail subject
        · rw [hnone] at he
          cases he
      · exact ih res.value

/-- Where a path is written does not decide what it leads to. -/
theorem found_value_mapRange (g : Range → Range) (t : Traversal) (context : Option Context) :
    found ((t.mapRange g).value context) = found (t.value context) := by
  obtain ⟨first, rest⟩ := t
  cases first with
  | root name range =>
    cases context with
    | none => rfl
    | some c =>
      simp only [value, mapRange, Step.mapRange]
      cases c.lookupVariable name with
      | none => rfl
      | some v => exact found_apply_mapRange g rest v
  | _ => rfl

theorem value_terse (t : Traversal) (context : Option Context) : Terse (t.value context) := by
  obtain ⟨first, rest⟩ := t
  cases first with
  | root name range =>
    cases context with
    | none => exact terse_ofError _ _ _
    | some c =>
      simp only [value]
      cases c.lookupVariable name with
      | none => exact terse_ofError _ _ _
      | some v => exact apply_terse rest v
  | _ => exact terse_error _

end Traversal

end Interpolation.Config
