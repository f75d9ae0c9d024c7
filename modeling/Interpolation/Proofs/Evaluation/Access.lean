/-
Elements under keys that are text, in configurations and in templates.

* `position?_text_iff` — a text names a position in a list on both sides, or on neither;
* `index_matches` — a configuration value and what templates see of it have the same
  elements under a text;
* `apply_matches` — so they do along any number of keys.

Design notes: there are two ways to look something up.  A configuration takes a text as a
position in a list when it is made of digits.  A template reads it as a number, which may have
a sign and a fraction.  A number with a fraction is no position, and a negative one lies outside
of every list, so what is left is a minus sign before zeros (`IsNegativeZero`).  On the way the
two sides differ in what they do not know: a configuration value that is not known is looked
into like one that a template does not know, and the unknown of templates itself is left out.
-/
import Interpolation.Proofs.Config.LongKeys
import Interpolation.Proofs.Evaluation.Faults
import Interpolation.Proofs.Evaluation.Numerals
import Interpolation.Proofs.Evaluation.Operation
import Interpolation.Proofs.Value.Parts
import Mathlib.Data.List.TakeWhile

namespace Interpolation

open Digits (IsTooLong)

/-! ### Texts that are read as numbers -/

namespace Digits

/-- A minus sign and nothing but zeros behind it. -/
def IsNegativeZero (s : String) : Prop :=
  ∃ zeros, zeros ≠ [] ∧ (∀ c ∈ zeros, c = '0') ∧ s.toList = '-' :: zeros

theorem eq_zero_of_digitValue {c : Char} (hc : c.isDigit = true) (h : digitValue c = 0) :
    c = '0' := by
  have hcode := Char.isDigit_iff_toNat.mp hc
  rw [← Char.toNat_inj]
  have hzero : '0'.toNat = 48 := rfl
  unfold digitValue at h
  omega

/-- Digits that stand for zero are zeros. -/
theorem eq_zero_of_toNat {cs : List Char} (hcs : ∀ c ∈ cs, c.isDigit = true)
    (h : toNat cs = 0) : ∀ c ∈ cs, c = '0' := by
  induction cs using List.reverseRecOn with
  | nil => simp
  | append_singleton cs c ih =>
    obtain ⟨hinit, hlast⟩ := List.forall_mem_append.mp hcs
    rw [toNat_concat] at h
    refine List.forall_mem_append.mpr ⟨ih hinit (by omega), ?_⟩
    have hc := eq_zero_of_digitValue (hlast c (List.mem_singleton_self c)) (by omega)
    exact List.forall_mem_singleton.mpr hc

end Digits

namespace Number

/-- A number without a sign has a fraction or is made of digits. -/
theorem ofUnsigned?_cases {negative : Bool} {cs : List Char} {n : Number}
    (h : ofUnsigned? negative cs = some n) :
    (∃ x, n = .float x) ∨ cs ≠ [] ∧ (∀ c ∈ cs, c.isDigit = true) ∧
      n = .int (if negative then -(Digits.toNat cs : Int) else Digits.toNat cs) := by
  cases ofUnsigned?_eq_some_iff.mp h with
  | whole hdigits => exact .inr ⟨hdigits.1, hdigits.2, rfl⟩
  | point => exact .inl ⟨_, rfl⟩

end Number

namespace Evaluation

open Config
open Digits (IsNegativeZero)

variable {s : String}

/-- Neither side takes a text for a position that is not made of digits. -/
theorem positionIn_of_not_digits (hzero : ¬IsNegativeZero s)
    (hdigits : ¬(s.toList ≠ [] ∧ ∀ c ∈ s.toList, c.isDigit = true)) {n : Number}
    (h : Number.ofText? s.toList = some n) (length : Nat) : positionIn length n = none := by
  unfold Number.ofText? at h
  split at h
  · next cs hcs =>
    rcases Number.ofUnsigned?_cases h with ⟨x, rfl⟩ | ⟨hne, hall, rfl⟩
    · rfl
    · -- the number lies below zero, since not all of the digits are zeros
      have hpos : Digits.toNat cs ≠ 0 := by
        intro h
        exact hzero ⟨cs, hne, Digits.eq_zero_of_toNat hall h, hcs⟩
      rw [positionIn, if_neg]
      simp only [if_true]
      omega
  · rcases Number.ofUnsigned?_cases h with ⟨x, rfl⟩ | ⟨hne, hall, rfl⟩
    · rfl
    · exact absurd ⟨hne, hall⟩ hdigits

/-- **A text names a position in a list on both sides, or on neither.** -/
theorem position?_text_iff (hlong : ¬IsTooLong s) (hzero : ¬IsNegativeZero s) {length i : Nat} :
    (∃ n, Number.ofText? s.toList = some n ∧ positionIn length n = some i) ↔
      position? (.text s) = .ok (some (i : Int)) ∧ i < length := by
  by_cases hdigits : s.toList ≠ [] ∧ ∀ c ∈ s.toList, c.isDigit = true
  · obtain ⟨hne, hall⟩ := hdigits
    have hshort : s.toList.length ≤ Digits.digitLimit :=
      Nat.le_of_not_lt fun h => hlong ⟨hall, h⟩
    have hsign : Number.ofText? s.toList = Number.ofUnsigned? false s.toList := by
      rw [Number.ofText?]
      rintro cs hcs
      cases hall '-' (hcs ▸ List.mem_cons_self)
    have hposition : position? (.text s) = .ok (some (Digits.toNat s.toList : Int)) := by
      rw [position?, if_pos ⟨hne, List.all_eq_true.mpr hall⟩, Digits.toNat?, if_pos hshort]
    rw [hsign, Number.ofUnsigned?_digits hne hall, Digits.toNat?, if_pos hshort, hposition]
    simp only [Option.map_some, Option.some.injEq, exists_eq_left', positionIn]
    simp
    omega
  · have hposition : position? (.text s) = .ok none := by
      rw [position?, if_neg (by simpa [List.all_eq_true] using hdigits)]
    constructor
    · rintro ⟨n, hn, hi⟩
      rw [positionIn_of_not_digits hzero hdigits hn] at hi
      cases hi
    · rintro ⟨hi, -⟩
      rw [hposition] at hi
      cases hi

end Evaluation

/-! ### Entries of maps -/

namespace Value

theorem find?_entriesToTemplate (key : String) (entries : List (String × Value)) :
    find? key (entriesToTemplate entries) = (find? key entries).map toTemplate := by
  rw [entriesToTemplate_eq_map, find?, List.find?_map, find?, Option.map_map, Option.map_map]
  rfl

end Value

namespace Evaluation

open Config
open Digits (IsNegativeZero)

variable {s : String} {v w : Value}

/-- What a look-up finds holds nothing that was not there before, or is not known. -/
theorem not_unknown_of_found {key : Value} {subject : Option Range}
    (hw : ¬Value.unknown.OccursIn w) (h : found (index w key subject) = some v) :
    ¬Value.unknown.OccursIn v := by
  intro hv
  rcases found_index_cases h with ⟨-, rfl⟩ | ⟨items, i, hitems, -, hi⟩ | ⟨entries, s, rfl, -, hs⟩
  · cases (Value.occursIn_leaf_iff rfl).mp hv
  · obtain ⟨-, hi⟩ := Option.ite_none_right_eq_some.mp hi
    exact hw (.item hitems (List.mem_of_getElem? hi) hv)
  · obtain ⟨e, he, rfl⟩ := Option.map_eq_some_iff.mp hs
    exact hw (.entry (List.mem_of_find?_eq_some he) hv)

/-! ### One element -/

theorem toOption_eq_some_iff {ε α : Type} {r : Except ε α} {a : α} :
    r.toOption = some a ↔ r = .ok a := by
  cases r <;> simp [Except.toOption]

/-- The items of a list are the same on both sides. -/
theorem found_indexItems_toTemplate (hlong : ¬IsTooLong s) (hzero : ¬IsNegativeZero s)
    (items : List Value) (subject : Option Range) :
    (found (indexItems items (.text s) subject)).map Value.toTemplate =
      (elementOf (Value.itemsToTemplate items) (.text s)).toOption := by
  ext u
  rw [Option.map_eq_some_iff, toOption_eq_some_iff, elementOf_eq_ok,
    Value.itemsToTemplate_eq_map, List.length_map]
  have hnumber : ∀ n, Value.toNumber (.text s) = .ok n ↔ Number.ofText? s.toList = some n := by
    intro n
    rw [Value.toNumber]
    cases Number.ofText? s.toList <;> simp
  constructor
  · rintro ⟨v, hv, rfl⟩
    obtain ⟨i, hi, hitem⟩ := found_indexItems_iff.mp hv
    obtain ⟨hpos, hitem⟩ := Option.ite_none_right_eq_some.mp hitem
    obtain ⟨k, rfl⟩ := Int.eq_ofNat_of_zero_le hpos
    have hlength := (List.getElem?_eq_some_iff.mp hitem).1
    obtain ⟨n, hn, hk⟩ := (position?_text_iff hlong hzero).mpr ⟨hi, hlength⟩
    exact ⟨n, k, (hnumber n).mpr hn, hk, by rw [List.getElem?_map]; exact congrArg _ hitem⟩
  · rintro ⟨n, k, hn, hk, hitem⟩
    obtain ⟨hi, hlength⟩ := (position?_text_iff hlong hzero).mp ⟨n, (hnumber n).mp hn, hk⟩
    obtain ⟨v, hv, rfl⟩ := Option.map_eq_some_iff.mp (List.getElem?_map .. ▸ hitem)
    refine ⟨v, found_indexItems_iff.mpr ⟨k, hi, ?_⟩, rfl⟩
    rw [item?, if_pos (Int.natCast_nonneg k)]
    exact hv

/-- The entries of a map are the same on both sides. -/
theorem found_indexEntries_toTemplate (entries : List (String × Value)) (subject : Option Range) :
    (found (.ok (indexEntries entries (.text s) subject) : Except Fault Result)).map
        Value.toTemplate =
      (entryOf (Value.entriesToTemplate entries) (.text s)).toOption := by
  rw [indexEntries, entryOf, Value.find?_entriesToTemplate]
  cases Value.find? s entries <;> rfl

/-- **A configuration value and what templates see of it have the same elements.** -/
theorem found_index_toTemplate (hw : ¬Value.unknown.OccursIn w) (hlong : ¬IsTooLong s)
    (hzero : ¬IsNegativeZero s) (subject : Option Range) :
    (found (index w (.text s) subject)).map Value.toTemplate =
      (applyIndex w.toTemplate (.text s)).toOption := by
  cases w with
  | unknown => exact absurd .self hw
  | list items | tuple items =>
    rw [Value.toTemplate]
    exact found_indexItems_toTemplate hlong hzero items subject
  | map entries =>
    rw [Value.toTemplate]
    exact found_indexEntries_toTemplate entries subject
  | _ => rfl

/-- Both look-ups give a value, which is the same to templates, or they both report
something. -/
inductive Matches {ε : Type} : Except ε Result → Except Failure Value → Prop
  | value (v : Value) : Matches (.ok (.ofValue v)) (.ok v.toTemplate)
  | report (summary detail : String) (subject : Option Range) (e : EvalError) :
    Matches (.ok (.ofError summary detail subject)) (.error (.error e))

theorem Matches.mapError {ε δ : Type} {r : Except ε Result} {m : Except Failure Value}
    (h : Matches r m) (f : ε → δ) : Matches (r.mapError f) m := by
  cases h with
  | value v => exact .value v
  | report summary detail subject e => exact .report summary detail subject e

theorem Matches.of_found {ε : Type} {r : Except ε Result} {m : Except Failure Value}
    (hterse : Terse r) (hr : ∀ f, r ≠ .error f) (hm : Fails Failure.IsError m)
    (h : (found r).map Value.toTemplate = m.toOption) : Matches r m := by
  cases hfound : found r with
  | some v =>
    rw [hfound, Option.map_some, eq_comm, toOption_eq_some_iff] at h
    rw [hterse.eq_ofValue hfound, h]
    exact .value v
  | none =>
    rw [hfound, Option.map_none] at h
    cases m with
    | ok a => cases h
    | error failure =>
      obtain ⟨e, rfl⟩ : ∃ e, failure = .error e := by
        cases failure with
        | error e => exact ⟨e, rfl⟩
        | _ => exact (hm _ rfl).elim
      cases r with
      | error f => exact absurd rfl (hr f)
      | ok res =>
        rcases hterse res rfl with ⟨summary, detail, subject, rfl⟩ | hnone
        · exact .report summary detail subject e
        · simp [found, hnone] at hfound

/-- A look-up with a text reports an evaluation error if it fails. -/
theorem applyIndex_text_fails (target : Value) (s : String) :
    Fails Failure.IsError (applyIndex target (.text s)) := by
  intro failure h
  have hown := applyIndex_fails target (.text s) failure h
  cases failure with
  | error e => cases e <;> exact hown
  | diagnosed ds => exact hown.elim
  | fault f =>
    obtain ⟨⟨items, i, -, hkey, -⟩ | ⟨entries, -, hkey⟩, -⟩ := applyIndex_eq_fault.mp h
    · cases hkey
    · simp [Value.display] at hkey

theorem index_matches (hw : ¬Value.unknown.OccursIn w) (hlong : ¬IsTooLong s)
    (hzero : ¬IsNegativeZero s) (subject : Option Range) :
    Matches (index w (.text s) subject) (applyIndex w.toTemplate (.text s)) := by
  refine .of_found (index_terse _ _ _) (fun f hf => ?_) (applyIndex_text_fails _ s)
    (found_index_toTemplate hw hlong hzero subject)
  exact hlong (index_text_eq_error.mp hf).2.1

/-! ### Walks -/

/-- The element of a template value at the end of a walk along keys. -/
def applyKeys (v : Value) (keys : List String) : Except Failure Value :=
  keys.foldlM (fun target key => applyIndex target (.text key)) v

/-- The steps of a path look up keys that are text. -/
def Along (keys : List String) (steps : List Step) : Prop :=
  List.Forall₂ (fun key step => ∃ range, step = .index (.text key) range) keys steps

/-- **Along any number of keys both sides come to the same.** -/
theorem apply_matches {keys : List String} {steps : List Step} (hsteps : Along keys steps)
    (hkeys : ∀ key ∈ keys, ¬IsTooLong key ∧ ¬IsNegativeZero key)
    (hw : ¬Value.unknown.OccursIn w) :
    Matches (Traversal.apply steps w) (applyKeys w.toTemplate keys) := by
  -- what a step finds holds no unknown of templates either, so the walk can go on from it
  induction hsteps generalizing w with
  | nil => exact .value w
  | @cons key step keys rest hstep _ ih =>
    obtain ⟨range, rfl⟩ := hstep
    obtain ⟨⟨hlong, hzero⟩, hrest⟩ := List.forall_mem_cons.mp hkeys
    have hfirst := index_matches hw hlong hzero (some range)
    have hfound : ∀ v, index w (.text key) (some range) = .ok (.ofValue v) →
        ¬Value.unknown.OccursIn v := by
      intro v hv
      exact not_unknown_of_found hw (hv ▸ found_ofValue v)
    rw [Traversal.apply, applyKeys, List.foldlM_cons, Step.apply]
    generalize index w (.text key) (some range) = r, applyIndex w.toTemplate (.text key) = m
      at hfirst hfound ⊢
    cases hfirst with
    | value v => exact ih hrest (hfound v rfl)
    | report summary detail subject e => exact .report summary detail subject e

end Evaluation

end Interpolation
