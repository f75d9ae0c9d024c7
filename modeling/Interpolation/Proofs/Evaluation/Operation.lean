/-
What operations are computed from, by cases.

* `isAtom_of_toText`, `isAtom_of_toNumber`, `isAtom_of_toBool` — only atoms can be
  used as text, as numbers and as bools;
* `applyBinary_cases`, `joinParts_cases`, … — how the operation of each node comes to
  a value;
* `applyBinary_settled`, `joinParts_settled`, … — settled values have settled results.

Design notes: each operation has one lemma that says all there is to say about its
success: either it waits for an operand that is not known yet, or the operands it
has looked into are atoms.  Whatever else is said about the results of operations
follows from these.
-/
import Interpolation.Evaluation.Operation
import Interpolation.Proofs.Outcome
import Interpolation.Proofs.Value.Settled

namespace Interpolation

namespace Value

theorem isAtom_of_toText {v : Value} {s : String} (h : v.toText = .ok s) :
    v.isAtom = true := by
  cases v with
  | unknown | dynamic | map | list | tuple => simp [toText] at h
  | _ => rfl

theorem isAtom_of_toNumber {v : Value} {n : Number} (h : v.toNumber = .ok n) :
    v.isAtom = true := by
  cases v with
  | unknown | dynamic | map | list | tuple => simp [toNumber] at h
  | _ => rfl

theorem isAtom_of_toBool {v : Value} {b : Bool} (h : v.toBool = .ok b) :
    v.isAtom = true := by
  cases v with
  | unknown | dynamic | map | list | tuple => simp [toBool] at h
  | _ => rfl

@[simp] theorem isAtom_ofNumber (n : Number) : (ofNumber n).isAtom = true := by
  cases n <;> rfl

end Value

namespace Evaluation

open Template (UnaryOp BinaryOp)

/-! ### How operations come to their values -/

section Waiting

variable {α : Type} {v w : Value} {a u : α} {r : Except Failure α}

/-- What gives a fixed answer as long as its operand is not known. -/
theorem wait_cases (h : (if v.isUnknown then .ok a else r) = .ok u) :
    (v = .unknown ∧ u = a) ∨ r = .ok u := by
  split at h
  · next hv =>
    cases h
    exact .inl ⟨Value.isUnknown_iff.mp hv, rfl⟩
  · exact .inr h

theorem wait_either_cases (h : (if v.isUnknown || w.isUnknown then .ok a else r) = .ok u) :
    ((v = .unknown ∨ w = .unknown) ∧ u = a) ∨ r = .ok u := by
  split at h
  · next hvw =>
    cases h
    rw [Bool.or_eq_true, Value.isUnknown_iff, Value.isUnknown_iff] at hvw
    exact .inl ⟨hvw, rfl⟩
  · exact .inr h

end Waiting

theorem applyUnary_cases {op : UnaryOp} {v u : Value} (h : applyUnary op v = .ok u) :
    (v = .unknown ∧ u = .unknown) ∨ (v.isAtom = true ∧ u.isAtom = true) := by
  unfold applyUnary at h
  rcases wait_cases h with hwait | h
  · exact .inl hwait
  · cases op with
    | not =>
      obtain ⟨b, hb, h⟩ := bind_eq_ok.mp h
      cases h
      exact .inr ⟨Value.isAtom_of_toBool hb, rfl⟩
    | negate =>
      obtain ⟨n, hn, h⟩ := bind_eq_ok.mp h
      cases h
      exact .inr ⟨Value.isAtom_of_toNumber hn, Value.isAtom_ofNumber _⟩

/-- The operators that compare values of all sorts. -/
def isEquality : BinaryOp → Bool
  | .equal | .notEqual => true
  | _ => false

theorem applyBinary_cases {op : BinaryOp} {v w u : Value} (h : applyBinary op v w = .ok u) :
    ((v = .unknown ∨ w = .unknown) ∧ u = .unknown) ∨
      ((isEquality op = true ∨ (v.isAtom = true ∧ w.isAtom = true)) ∧ u.isAtom = true) := by
  unfold applyBinary at h
  rcases wait_either_cases h with hwait | h
  · exact .inl hwait
  · right
    split at h
    · cases h
      exact ⟨.inl rfl, rfl⟩
    · cases h
      exact ⟨.inl rfl, rfl⟩
    -- the four comparisons and arithmetic
    iterate 5
      obtain ⟨a, ha, h⟩ := bind_eq_ok.mp h
      obtain ⟨b, hb, h⟩ := bind_eq_ok.mp h
      refine ⟨.inr ⟨Value.isAtom_of_toNumber ha, Value.isAtom_of_toNumber hb⟩, ?_⟩
      first
        | cases h; rfl
        | split at h
          · cases h; exact Value.isAtom_ofNumber _
          · cases h

theorem firstDecides_cases {op : BinaryOp} {v : Value} {decided : Option Value}
    (h : firstDecides op v = .ok decided) :
    (v = .unknown ∧ decided = some .unknown) ∨
      (v.isAtom = true ∧ ∀ u, decided = some u → u.isAtom = true) := by
  unfold firstDecides at h
  rcases wait_cases h with hwait | h
  · exact .inl hwait
  · obtain ⟨b, hb, h⟩ := bind_eq_ok.mp h
    cases h
    refine .inr ⟨Value.isAtom_of_toBool hb, fun u hu => ?_⟩
    split at hu
    · cases hu
      rfl
    · cases hu

theorem secondDecides_cases {v u : Value} (h : secondDecides v = .ok u) :
    (v = .unknown ∧ u = .unknown) ∨ (v.isAtom = true ∧ u.isAtom = true) := by
  unfold secondDecides at h
  rcases wait_cases h with hwait | h
  · exact .inl hwait
  · obtain ⟨b, hb, h⟩ := bind_eq_ok.mp h
    cases h
    exact .inr ⟨Value.isAtom_of_toBool hb, rfl⟩

theorem chooses_cases {v : Value} {choice : Option Bool} (h : chooses v = .ok choice) :
    (v = .unknown ∧ choice = none) ∨ (v.isAtom = true ∧ choice ≠ none) := by
  unfold chooses at h
  rcases wait_cases h with hwait | h
  · exact .inl hwait
  · obtain ⟨b, hb, h⟩ := bind_eq_ok.mp h
    cases h
    exact .inr ⟨Value.isAtom_of_toBool hb, nofun⟩

theorem isAtom_of_partTexts {part : Nat} {values : List Value} {texts : List String}
    (h : partTexts part values = .ok texts) : ∀ v ∈ values, v.isAtom = true := by
  induction values generalizing part texts with
  | nil => simp
  | cons v rest ih =>
    rw [partTexts] at h
    split at h
    iterate 3 cases h
    obtain ⟨s, hs, h⟩ := bind_eq_ok.mp h
    obtain ⟨others, hothers, h⟩ := bind_eq_ok.mp h
    exact List.forall_mem_cons.mpr ⟨Value.isAtom_of_toText hs, ih hothers⟩

theorem joinParts_cases {values : List Value} {u : Value} (h : joinParts values = .ok u) :
    values = [u] ∨ (.unknown ∈ values ∧ u = .unknown) ∨
      ((∀ v ∈ values, v.isAtom = true) ∧ u.isAtom = true) := by
  unfold joinParts at h
  split at h
  · cases h
    exact .inl rfl
  · split at h
    · next hany =>
      cases h
      obtain ⟨v, hv, hunknown⟩ := List.any_eq_true.mp hany
      exact .inr (.inl ⟨Value.isUnknown_iff.mp hunknown ▸ hv, rfl⟩)
    · obtain ⟨texts, htexts, h⟩ := bind_eq_ok.mp h
      cases h
      exact .inr (.inr ⟨isAtom_of_partTexts htexts, rfl⟩)

theorem elementOf_eq_ok {items : List Value} {key u : Value} :
    elementOf items key = .ok u ↔
      ∃ n i, key.toNumber = .ok n ∧ positionIn items.length n = some i ∧ items[i]? = some u := by
  unfold elementOf
  constructor
  · intro h
    obtain ⟨n, hn, h⟩ := bind_eq_ok.mp h
    split at h
    · next v hv =>
      cases h
      obtain ⟨i, hi, hu⟩ := Option.bind_eq_some_iff.mp hv
      exact ⟨n, i, hn, hi, hu⟩
    · split at h <;> cases h
  · rintro ⟨n, i, hn, hi, hu⟩
    simp only [hn, bind, Except.bind, hi, Option.bind_some, hu]
    rfl

theorem entryOf_eq_ok {entries : List (String × Value)} {key u : Value} :
    entryOf entries key = .ok u ↔ ∃ s, key = .text s ∧ Value.find? s entries = some u := by
  constructor
  · intro h
    unfold entryOf at h
    split at h
    · next s =>
      split at h
      · next v hv =>
        cases h
        exact ⟨s, rfl, hv⟩
      · cases h
    · cases h
  · rintro ⟨s, rfl, hu⟩
    simp only [entryOf, hu]

/-- An element comes from a list, under the number of a position, or from a map,
under a text. -/
theorem applyIndex_cases {target key u : Value} (h : applyIndex target key = .ok u) :
    ((target = .unknown ∨ key = .unknown) ∧ u = .unknown) ∨
      (∃ items, (target = .list items ∨ target = .tuple items) ∧ elementOf items key = .ok u) ∨
      ∃ entries, target = .map entries ∧ entryOf entries key = .ok u := by
  unfold applyIndex at h
  rcases wait_either_cases h with hwait | h
  · exact .inl hwait
  · split at h
    · next items _ => exact .inr (.inl ⟨items, .inl rfl, h⟩)
    · next items _ => exact .inr (.inl ⟨items, .inr rfl, h⟩)
    · next entries _ => exact .inr (.inr ⟨entries, rfl, h⟩)
    · cases h

/-! ### Settled operands have settled results -/

theorem applyUnary_settled {op : UnaryOp} {v u : Value} (hv : v.isSettled = true)
    (h : applyUnary op v = .ok u) : u.isSettled = true := by
  rcases applyUnary_cases h with ⟨hunknown, _⟩ | ⟨_, hu⟩
  · exact absurd hunknown (Value.ne_unknown_of_isSettled hv)
  · exact Value.isSettled_of_isAtom hu

theorem applyBinary_settled {op : BinaryOp} {v w u : Value} (hv : v.isSettled = true)
    (hw : w.isSettled = true) (h : applyBinary op v w = .ok u) : u.isSettled = true := by
  rcases applyBinary_cases h with ⟨hunknown | hunknown, _⟩ | ⟨_, hu⟩
  · exact absurd hunknown (Value.ne_unknown_of_isSettled hv)
  · exact absurd hunknown (Value.ne_unknown_of_isSettled hw)
  · exact Value.isSettled_of_isAtom hu

theorem firstDecides_settled {op : BinaryOp} {v u : Value} (hv : v.isSettled = true)
    (h : firstDecides op v = .ok (some u)) : u.isSettled = true := by
  rcases firstDecides_cases h with ⟨hunknown, _⟩ | ⟨_, hu⟩
  · exact absurd hunknown (Value.ne_unknown_of_isSettled hv)
  · exact Value.isSettled_of_isAtom (hu u rfl)

theorem secondDecides_settled {v u : Value} (hv : v.isSettled = true)
    (h : secondDecides v = .ok u) : u.isSettled = true := by
  rcases secondDecides_cases h with ⟨hunknown, _⟩ | ⟨_, hu⟩
  · exact absurd hunknown (Value.ne_unknown_of_isSettled hv)
  · exact Value.isSettled_of_isAtom hu

theorem chooses_ne_none {v : Value} (hv : v.isSettled = true) : chooses v ≠ .ok none := by
  intro h
  rcases chooses_cases h with ⟨hunknown, _⟩ | ⟨_, hne⟩
  · exact Value.ne_unknown_of_isSettled hv hunknown
  · exact hne rfl

theorem joinParts_settled {values : List Value} {u : Value}
    (hvalues : ∀ v ∈ values, v.isSettled = true) (h : joinParts values = .ok u) :
    u.isSettled = true := by
  rcases joinParts_cases h with rfl | ⟨hunknown, _⟩ | ⟨_, hu⟩
  · exact hvalues u (List.mem_singleton_self u)
  · exact absurd rfl (Value.ne_unknown_of_isSettled (hvalues _ hunknown))
  · exact Value.isSettled_of_isAtom hu

theorem applyIndex_settled {target key u : Value} (htarget : target.isSettled = true)
    (hkey : key.isSettled = true) (h : applyIndex target key = .ok u) : u.isSettled = true := by
  rcases applyIndex_cases h with ⟨hunknown | hunknown, _⟩ | ⟨items, hitems, helement⟩ |
    ⟨entries, rfl, hentry⟩
  · exact absurd hunknown (Value.ne_unknown_of_isSettled htarget)
  · exact absurd hunknown (Value.ne_unknown_of_isSettled hkey)
  · obtain ⟨n, i, _, _, hu⟩ := elementOf_eq_ok.mp helement
    exact Value.isSettled_of_getElem? htarget hitems hu
  · obtain ⟨s, _, hu⟩ := entryOf_eq_ok.mp hentry
    exact Value.isSettled_of_find? htarget hu

end Evaluation

end Interpolation
