/-
Keys that are too long to be read as numbers.

* `text?_toNat` — a number that was read from digits can be written again;
* `index_text_eq_error` — a look-up with a text breaks down exactly in a list, on a text of
  too many digits;
* `Traversal.apply_eq_error` — a walk breaks down where one of its steps does;
* `Traversal.value_eq_error` — the path of a name breaks down where it enters a list.

Design notes: the digits of a key are counted before they are read, so what breaks down is
the reading and never the report of an index out of range.
-/
import Mathlib.Algebra.Ring.Nat
import Mathlib.Data.List.Induction
import Interpolation.Proofs.Config.Traversal
import Interpolation.Proofs.Outcome

namespace Interpolation

namespace Digits

theorem digitValue_lt {c : Char} (h : c.isDigit = true) : digitValue c < 10 := by
  simp only [Char.isDigit, Bool.and_eq_true, decide_eq_true_eq] at h
  have hle : c.toNat ≤ 57 := h.2
  have hzero : '0'.toNat = 48 := rfl
  unfold digitValue
  omega

/-- A run of digits stands for a number of at most as many digits. -/
theorem toNat_lt {cs : List Char} (h : ∀ c ∈ cs, c.isDigit = true) :
    toNat cs < 10 ^ cs.length := by
  induction cs using List.reverseRecOn with
  | nil => decide
  | append_singleton cs c ih =>
    have hcs := ih fun d hd => h d (List.mem_append_left _ hd)
    have hc := digitValue_lt (h c (List.mem_append_right _ (List.mem_singleton_self c)))
    rw [toNat_concat, List.length_append, List.length_singleton, Nat.pow_succ]
    omega

/-- What was read is not too long to be written. -/
theorem text?_toNat {cs : List Char} (h : ∀ c ∈ cs, c.isDigit = true) {n : Nat}
    (hn : toNat? cs = some n) : ∃ s, text? n = some s := by
  unfold toNat? at hn
  split at hn
  · next hlength =>
    cases hn
    refine Option.isSome_iff_exists.mp ((text?_isSome_iff _).mpr ?_)
    rw [Int.natAbs_natCast]
    exact Nat.lt_of_lt_of_le (toNat_lt h) (Nat.pow_le_pow_right (by decide) hlength)
  · cases hn

/-- A text of digits only, too many of them to be read. -/
def IsTooLong (s : String) : Prop :=
  (∀ c ∈ s.toList, c.isDigit = true) ∧ digitLimit < s.toList.length

end Digits

namespace Config

open Digits (IsTooLong)

theorem position?_text (s : String) :
    (IsTooLong s ∧ position? (.text s) = .error (.tooManyDigitsToRead s.toList.length)) ∨
      ¬IsTooLong s ∧ ∃ position, position? (.text s) = .ok position ∧
        ∀ i, position = some i → ∃ shown, Digits.text? i = some shown := by
  have hall : (s.toList.all Char.isDigit = true) ↔ ∀ c ∈ s.toList, c.isDigit = true :=
    List.all_eq_true
  rw [position?]
  split
  · next hdigits =>
    have hs := hall.mp hdigits.2
    split
    · next n hn =>
      have hlong : ¬IsTooLong s := by
        rintro ⟨_, hlength⟩
        rw [Digits.toNat?, if_neg (Nat.not_le.mpr hlength)] at hn
        cases hn
      refine .inr ⟨hlong, _, rfl, ?_⟩
      rintro _ ⟨⟩
      exact Digits.text?_toNat hs hn
    · next hn =>
      have hlength : Digits.digitLimit < s.toList.length := by
        unfold Digits.toNat? at hn
        split at hn
        · cases hn
        · next hle => exact Nat.not_le.mp hle
      exact .inl ⟨⟨hs, hlength⟩, rfl⟩
  · next hdigits =>
    refine .inr ⟨fun h => hdigits ⟨?_, hall.mpr h.1⟩, none, rfl, nofun⟩
    exact List.ne_nil_of_length_pos (Nat.lt_of_le_of_lt (Nat.zero_le _) h.2)

theorem indexItems_text_eq_error {items : List Value} {s : String} {subject : Option Range}
    {f : Fault} :
    indexItems items (.text s) subject = .error f ↔
      IsTooLong s ∧ f = .tooManyDigitsToRead s.toList.length := by
  unfold indexItems
  rcases position?_text s with ⟨hlong, hp⟩ | ⟨hlong, position, hp, hshown⟩
  · rw [hp]
    simp [hlong, bind, Except.bind, eq_comm]
  · rw [hp]
    simp only [hlong, false_and, iff_false, bind, Except.bind]
    split
    · nofun
    · next i =>
      obtain ⟨shown, hi⟩ := hshown i rfl
      rw [hi]
      split <;> nofun

/-- A look-up with a text breaks down in a list only, on a key that is too long. -/
theorem index_text_eq_error {collection : Value} {s : String} {subject : Option Range}
    {f : Fault} :
    index collection (.text s) subject = .error f ↔
      (∃ items, collection = .list items ∨ collection = .tuple items) ∧ IsTooLong s ∧
        f = .tooManyDigitsToRead s.toList.length := by
  cases collection with
  | list items => simp [index, indexItems_text_eq_error]
  | tuple items => simp [index, indexItems_text_eq_error]
  | _ => simp [index]

/-- A walk breaks down at a step, after what the steps before it have found. -/
theorem Traversal.apply_eq_error {steps : List Step} {v : Value} {f : Fault} :
    apply steps v = .error f ↔ ∃ before step after w, steps = before ++ step :: after ∧
      found (apply before v) = some w ∧ step.apply w = .error f := by
  induction steps generalizing v with
  | nil => simp [apply]
  | cons step rest ih =>
    rw [apply, bind_eq_error]
    constructor
    · rintro (hstep | ⟨res, hstep, h⟩)
      · exact ⟨[], step, rest, v, rfl, rfl, hstep⟩
      · split at h
        · cases h
        · next hclean =>
          obtain ⟨before, failing, after, w, rfl, hw, hf⟩ := ih.mp h
          refine ⟨step :: before, failing, after, w, rfl, ?_, hf⟩
          rw [found_apply_cons, hstep, found, if_neg hclean]
          exact hw
    · rintro ⟨before, failing, after, w, heq, hw, hf⟩
      cases before with
      | nil =>
        cases heq
        cases hw
        exact .inl hf
      | cons first before =>
        cases heq
        rw [found_apply_cons] at hw
        obtain ⟨middle, hmiddle, hw⟩ := Option.bind_eq_some_iff.mp hw
        refine .inr ⟨.ofValue middle, (step.apply_terse v).eq_ofValue hmiddle, ?_⟩
        exact ih.mpr ⟨before, failing, after, w, rfl, hw, hf⟩

/-- The steps of a name: a root, and then keys that are text. -/
def IsPath : List Step → Prop
  | [] => True
  | first :: rest =>
    (∃ name range, first = .root name range) ∧
      ∀ step ∈ rest, ∃ s range, step = .index (.text s) range

/-- On its way through a context a path comes to a list, with a key to be looked up in it. -/
inductive EntersList (c : Context) : Traversal → String → Prop
  | intro {root s : String} {start range : Range} {before after : List Step} {v w : Value}
      {items : List Value} (hroot : c.lookupVariable root = some v)
      (hw : found (Traversal.apply before v) = some w)
      (hitems : w = .list items ∨ w = .tuple items) :
      EntersList c ⟨.root root start, before ++ .index (.text s) range :: after⟩ s

/-- A path breaks down in a list, on a key that is too long. -/
theorem Traversal.value_eq_error {t : Traversal} (ht : IsPath t.steps) {context : Option Context}
    {f : Fault} :
    t.value context = .error f ↔ ∃ c s, context = some c ∧ EntersList c t s ∧ IsTooLong s ∧
      f = .tooManyDigitsToRead s.toList.length := by
  obtain ⟨first, rest⟩ := t
  obtain ⟨⟨root, start, hfirst⟩, hrest⟩ := ht
  cases hfirst
  -- past its root a path is a walk like any other
  have hvalue : ∀ c v, c.lookupVariable root = some v →
      (value ⟨.root root start, rest⟩ (some c) = .error f ↔ apply rest v = .error f) := by
    intro c v hv
    rw [value]
    simp only [hv]
  constructor
  · intro h
    cases context with
    | none => cases h
    | some c =>
      cases hv : c.lookupVariable root with
      | none =>
        rw [value] at h
        simp only [hv, reduceCtorEq] at h
      | some v =>
        obtain ⟨before, step, after, w, rfl, hw, hstep⟩ :=
          apply_eq_error.mp ((hvalue c v hv).mp h)
        obtain ⟨s, range, rfl⟩ := hrest step (by simp)
        obtain ⟨⟨items, hitems⟩, hlong, hf⟩ := index_text_eq_error.mp hstep
        exact ⟨c, s, rfl, .intro hv hw hitems, hlong, hf⟩
  · rintro ⟨c, s, rfl, henters, hlong, rfl⟩
    cases henters with
    | intro hroot hw hitems =>
      refine (hvalue c _ hroot).mpr (apply_eq_error.mpr ⟨_, _, _, _, rfl, hw, ?_⟩)
      exact index_text_eq_error.mpr ⟨⟨_, hitems⟩, hlong, rfl⟩

end Config

end Interpolation
