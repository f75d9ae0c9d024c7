/-
Computations that may fail, step by step.

* `bind_eq_ok`, `bind_eq_error` — a computation in two steps succeeds exactly when both
  steps do, and fails exactly when the first does or the second does after it;
* `mem_of_mapM_eq_ok` — what a computed list holds was computed from one of the items;
* `Ends` — what holds of the error of a computation and what holds of its result.
-/
namespace Interpolation

variable {ε α β : Type}

theorem bind_eq_ok {r : Except ε α} {f : α → Except ε β} {b : β} :
    (r >>= f) = .ok b ↔ ∃ a, r = .ok a ∧ f a = .ok b := by
  cases r with
  | error e => simp [bind, Except.bind]
  | ok a => simp [bind, Except.bind]

theorem bind_eq_error {r : Except ε α} {f : α → Except ε β} {e : ε} :
    (r >>= f) = .error e ↔ r = .error e ∨ ∃ a, r = .ok a ∧ f a = .error e := by
  cases r with
  | error e' => simp [bind, Except.bind]
  | ok a => simp [bind, Except.bind]

/-- Every result of a computed list is the result of one of the items. -/
theorem mem_of_mapM_eq_ok {f : α → Except ε β} {as : List α} {bs : List β}
    (h : as.mapM f = .ok bs) : ∀ b ∈ bs, ∃ a ∈ as, f a = .ok b := by
  induction as generalizing bs with
  | nil =>
    cases h
    simp
  | cons a rest ih =>
    rw [List.mapM_cons] at h
    obtain ⟨b, hb, h⟩ := bind_eq_ok.mp h
    obtain ⟨others, hothers, h⟩ := bind_eq_ok.mp h
    cases h
    refine List.forall_mem_cons.mpr ⟨⟨a, List.mem_cons_self, hb⟩, fun c hc => ?_⟩
    obtain ⟨a', ha', hc'⟩ := ih hothers c hc
    exact ⟨a', List.mem_cons_of_mem a ha', hc'⟩

variable {E : ε → Prop} {P : α → Prop} {Q : β → Prop}

/-- One thing holds of the error if a computation fails, and another of its result. -/
def Ends (E : ε → Prop) (P : α → Prop) : Except ε α → Prop
  | .ok a => P a
  | .error e => E e

theorem Ends.mono {E' : ε → Prop} {P' : α → Prop} {r : Except ε α} (h : Ends E P r)
    (hE : ∀ e, E e → E' e) (hP : ∀ a, P a → P' a) : Ends E' P' r := by
  cases r with
  | error e => exact hE e h
  | ok a => exact hP a h

theorem Ends.bind {r : Except ε α} {f : α → Except ε β} (h : Ends E P r)
    (hf : ∀ a, P a → Ends E Q (f a)) : Ends E Q (r >>= f) := by
  cases r with
  | error e => exact h
  | ok a => exact hf a h

theorem Ends.mapM {f : α → Except ε β} {as : List α} (h : ∀ a ∈ as, Ends E Q (f a)) :
    Ends E (fun bs => ∀ b ∈ bs, Q b) (as.mapM f) := by
  induction as with
  | nil => exact fun b hb => nomatch hb
  | cons a rest ih =>
    obtain ⟨ha, hrest⟩ := List.forall_mem_cons.mp h
    rw [List.mapM_cons]
    refine ha.bind fun b hb => (ih hrest).bind fun bs hbs => ?_
    exact List.forall_mem_cons.mpr ⟨hb, hbs⟩

end Interpolation
