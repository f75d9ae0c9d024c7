/-
When a comparison is settled although parts of its operands are not known yet.

* `verdict` — what equality inside collections comes to, whatever the unknown parts turn out
  to be;
* `same_of_verdict`, `exists_same` — every way of filling the unknown parts gives the
  verdict, and what the verdict leaves open is brought about by some way of filling them;
* `compares_filled_iff` — the operators `==` and `!=` keep an answer however their operands
  are filled exactly when the verdict is that answer.

Design notes: the operators do not wait for what is inside a collection.  They compare an
unknown part as if it were a constant, equal to itself only; so an answer that they give
may change once more is known.  The verdict is the comparison with a third answer, none,
for a part that meets an unknown one.  A part that is found different settles the whole,
which is why the three answers are joined as in the logic of Kleene.
-/
import Interpolation.Proofs.Value.Equality
import Interpolation.Proofs.Value.Settled
import Mathlib.Data.List.Nodup

namespace Interpolation

namespace Value

/-- `Filled v w` holds when `w` is `v` with any occurrences of the unknown value replaced by
arbitrary values. -/
inductive Filled : Value → Value → Prop
  | fill (w : Value) : Filled .unknown w
  | refl (v : Value) : Filled v v
  | list {xs ys : List Value} (h : List.Forall₂ Filled xs ys) : Filled (.list xs) (.list ys)
  | tuple {xs ys : List Value} (h : List.Forall₂ Filled xs ys) : Filled (.tuple xs) (.tuple ys)
  | map {es fs : List (String × Value)} (hkeys : es.map Prod.fst = fs.map Prod.fst)
      (h : List.Forall₂ Filled (es.map Prod.snd) (fs.map Prod.snd)) : Filled (.map es) (.map fs)

/-- The answer for a whole of two parts: a part that differs decides it. -/
def both : Option Bool → Option Bool → Option Bool
  | some false, _ => some false
  | _, some false => some false
  | some true, some true => some true
  | _, _ => none

mutual

/-- What equality inside collections comes to, as far as the known parts decide it. -/
def verdict : Value → Value → Option Bool
  | .unknown, _ => none
  | _, .unknown => none
  | .list xs, .list ys => verdictItems xs ys
  | .tuple xs, .tuple ys => verdictItems xs ys
  | .map es, .map fs => if es.length = fs.length then verdictEntries es fs else some false
  | v, w => some (same v w)

/-- The verdict on items, one by one. -/
def verdictItems : List Value → List Value → Option Bool
  | [], [] => some true
  | v :: vs, w :: ws => both (verdict v w) (verdictItems vs ws)
  | _, _ => some false

/-- The verdict on entries, each having its match among the others. -/
def verdictEntries : List (String × Value) → List (String × Value) → Option Bool
  | [], _ => some true
  | (key, v) :: rest, others =>
    both (match find? key others with
      | some w => verdict v w
      | none => some false) (verdictEntries rest others)

end

/-- What `==` comes to, as far as the known parts of its operands decide it. -/
def equalVerdict : Value → Value → Option Bool
  | .unknown, _ => none
  | _, .unknown => none
  | .notANumber _, _ => some false
  | v, w => if v.isBool = w.isBool then verdict v w else some false

/-- Values that equality inside collections finds equal to themselves: what is in them and
was computed as a number is one, and a map has each key once. -/
inductive IsProper : Value → Prop
  | null : IsProper .null
  | bool (b : Bool) : IsProper (.bool b)
  | int (i : Int) : IsProper (.int i)
  | float {x : Float} (h : Number.equal (.float x) (.float x) = true) : IsProper (.float x)
  | notANumber (mark : Nat) : IsProper (.notANumber mark)
  | text (s : String) : IsProper (.text s)
  | list {items : List Value} (h : ∀ v ∈ items, IsProper v) : IsProper (.list items)
  | tuple {items : List Value} (h : ∀ v ∈ items, IsProper v) : IsProper (.tuple items)
  | map {entries : List (String × Value)} (hkeys : (entries.map Prod.fst).Nodup)
      (h : ∀ e ∈ entries, IsProper e.2) : IsProper (.map entries)
  | unknown : IsProper .unknown
  | dynamic : IsProper .dynamic

variable {v w v' w' : Value} {xs ys xs' ys' : List Value}
variable {es fs es' fs' : List (String × Value)} {p q : Option Bool} {b b' c : Bool}

/-! ### Three answers -/

theorem both_eq_true_iff : both p q = some true ↔ p = some true ∧ q = some true := by
  rcases p with _ | _ | _ <;> rcases q with _ | _ | _ <;> decide

theorem both_eq_false_iff : both p q = some false ↔ p = some false ∨ q = some false := by
  rcases p with _ | _ | _ <;> rcases q with _ | _ | _ <;> decide

/-- If the answers for the parts are right, so is the answer for the whole. -/
theorem and_of_both (h : both p q = some c) (hp : ∀ d, p = some d → b = d)
    (hq : ∀ d, q = some d → b' = d) : (b && b') = c := by
  cases c with
  | true =>
    obtain ⟨hp', hq'⟩ := both_eq_true_iff.mp h
    rw [hp _ hp', hq _ hq']
    rfl
  | false =>
    rcases both_eq_false_iff.mp h with h' | h'
    · rw [hp _ h', Bool.false_and]
    · rw [hq _ h', Bool.and_false]

/-- If an answer can be had for each part that leaves it open, it can be had for the whole. -/
theorem and_of_both_ne (h : both p q ≠ some (!c)) (hp : p ≠ some (!c) → b = c)
    (hq : q ≠ some (!c) → b' = c) : (b && b') = c := by
  cases c with
  | true =>
    obtain ⟨hp', hq'⟩ := not_or.mp fun h' => h (both_eq_false_iff.mpr h')
    rw [hp hp', hq hq']
    rfl
  | false =>
    rcases not_and_or.mp fun h' => h (both_eq_true_iff.mpr h') with h' | h'
    · rw [hp h', Bool.false_and]
    · rw [hq h', Bool.and_false]

theorem eq_of_some_ne (h : some b ≠ some (!c)) : b = c := by
  rw [ne_eq, Option.some.injEq, Bool.eq_not, not_not] at h
  exact h

/-! ### Filling -/

/-- An entry of a map, and the entry in its place once the map is filled. -/
def FilledEntry (e f : String × Value) : Prop :=
  e.1 = f.1 ∧ Filled e.2 f.2

theorem filled_list_iff : Filled (.list xs) w ↔ ∃ ys, w = .list ys ∧ List.Forall₂ Filled xs ys := by
  constructor
  · intro h
    cases h with
    | refl => exact ⟨xs, rfl, List.forall₂_same.mpr fun x _ => .refl x⟩
    | list h => exact ⟨_, rfl, h⟩
  · rintro ⟨ys, rfl, h⟩
    exact .list h

theorem filled_tuple_iff :
    Filled (.tuple xs) w ↔ ∃ ys, w = .tuple ys ∧ List.Forall₂ Filled xs ys := by
  constructor
  · intro h
    cases h with
    | refl => exact ⟨xs, rfl, List.forall₂_same.mpr fun x _ => .refl x⟩
    | tuple h => exact ⟨_, rfl, h⟩
  · rintro ⟨ys, rfl, h⟩
    exact .tuple h

theorem forall₂_filledEntry_iff :
    List.Forall₂ FilledEntry es fs ↔
      es.map Prod.fst = fs.map Prod.fst ∧
        List.Forall₂ Filled (es.map Prod.snd) (fs.map Prod.snd) := by
  induction es generalizing fs with
  | nil => cases fs <;> simp
  | cons e es ih =>
    cases fs with
    | nil => simp
    | cons f fs =>
      simp only [List.forall₂_cons, ih, List.map_cons, List.cons.injEq, FilledEntry]
      tauto

theorem filled_map_iff :
    Filled (.map es) w ↔ ∃ fs, w = .map fs ∧ List.Forall₂ FilledEntry es fs := by
  constructor
  · intro h
    cases h with
    | refl => exact ⟨es, rfl, List.forall₂_same.mpr fun e _ => ⟨rfl, .refl e.2⟩⟩
    | map hkeys h => exact ⟨_, rfl, forall₂_filledEntry_iff.mpr ⟨hkeys, h⟩⟩
  · rintro ⟨fs, rfl, h⟩
    obtain ⟨hkeys, hvalues⟩ := forall₂_filledEntry_iff.mp h
    exact .map hkeys hvalues

/-- A key is found in a filled map exactly when it is found before. -/
theorem find?_filled (h : List.Forall₂ FilledEntry es es') (key : String) :
    (find? key es = none ∧ find? key es' = none) ∨
      ∃ v v', find? key es = some v ∧ find? key es' = some v' ∧ Filled v v' := by
  induction h with
  | nil => exact .inl ⟨rfl, rfl⟩
  | @cons e e' es es' he _ ih =>
    obtain ⟨k, v⟩ := e
    obtain ⟨k', v'⟩ := e'
    obtain ⟨rfl, hfilled⟩ := he
    rw [find?_cons, find?_cons]
    by_cases hkey : k = key
    · exact .inr ⟨v, v', by simp [hkey], by simp [hkey], hfilled⟩
    · simpa [hkey] using ih

/-! ### The verdict is right -/

/-- A value that is neither a collection nor unknown. -/
def IsPlain (v : Value) : Prop :=
  v.isAtom = true ∨ v = .dynamic

theorem Filled.eq_of_isPlain (h : Filled v w) (hv : v.IsPlain) : w = v := by
  cases h with
  | refl => rfl
  | fill | list | tuple | map => rcases hv with hv | hv <;> cases hv

/-- A plain value is different from every collection. -/
theorem same_filled_right (hv : v.IsPlain) (hw : Filled w w') (hunknown : w ≠ .unknown) :
    same v w' = same v w := by
  cases hw with
  | fill => exact absurd rfl hunknown
  | refl => rfl
  | list | tuple | map =>
    cases v with
    | unknown | list | tuple | map => rcases hv with hv | hv <;> cases hv
    | _ => simp [same, asNumber?]

theorem verdict_of_isPlain (hv : v.IsPlain) (hw : w ≠ .unknown) :
    verdict v w = some (same v w) := by
  cases v with
  | unknown | list | tuple | map => rcases hv with hv | hv <;> cases hv
  | _ =>
    cases w with
    | unknown => exact absurd rfl hw
    | _ => rfl

theorem sameItems_of_verdict
    (ih : ∀ x ∈ xs, ∀ {y x' y' c}, verdict x y = some c → Filled x x' → Filled y y' →
      same x' y' = c)
    (h : verdictItems xs ys = some c) (hxs : List.Forall₂ Filled xs xs')
    (hys : List.Forall₂ Filled ys ys') : sameItems xs' ys' = c := by
  induction hxs generalizing ys ys' c with
  | nil =>
    cases hys with
    | nil => simpa [verdictItems, sameItems] using h
    | cons => simpa [verdictItems, sameItems] using h
  | cons hx _ ihItems =>
    obtain ⟨ihHead, ihRest⟩ := List.forall_mem_cons.mp ih
    cases hys with
    | nil => simpa [verdictItems, sameItems] using h
    | cons hy hys =>
      rw [verdictItems] at h
      rw [sameItems]
      exact and_of_both h (fun d hd => ihHead hd hx hy) fun d hd => ihItems ihRest hd hys

theorem sameEntries_of_verdict
    (ih : ∀ e ∈ es, ∀ {w v' w' c}, verdict e.2 w = some c → Filled e.2 v' → Filled w w' →
      same v' w' = c)
    (h : verdictEntries es fs = some c) (hes : List.Forall₂ FilledEntry es es')
    (hfs : List.Forall₂ FilledEntry fs fs') : sameEntries es' fs' = c := by
  induction hes generalizing c with
  | nil => simpa [verdictEntries, sameEntries] using h
  | @cons e e' es es' he _ ihEntries =>
    obtain ⟨k, v⟩ := e
    obtain ⟨k', v'⟩ := e'
    obtain ⟨rfl, hv⟩ := he
    obtain ⟨ihHead, ihRest⟩ := List.forall_mem_cons.mp ih
    rw [verdictEntries] at h
    rw [sameEntries]
    refine and_of_both h (fun d hd => ?_) fun d hd => ihEntries ihRest hd
    rcases find?_filled hfs k with ⟨hfind, hfind'⟩ | ⟨w, w', hfind, hfind', hw⟩
    · simp only [hfind, Option.some.injEq] at hd
      simp only [hfind', hd]
    · simp only [hfind] at hd
      simp only [hfind']
      exact ihHead hd hv hw

theorem ne_unknown_of_verdict (h : verdict v w = some c) : w ≠ .unknown := by
  rintro rfl
  cases v <;> cases h

theorem same_of_verdict_plain (hplain : v.IsPlain) (h : verdict v w = some c)
    (hv : Filled v v') (hw : Filled w w') : same v' w' = c := by
  have hunknown := ne_unknown_of_verdict h
  rw [hv.eq_of_isPlain hplain, same_filled_right hplain hw hunknown]
  exact Option.some.inj ((verdict_of_isPlain hplain hunknown).symm.trans h)

/-- **Every way of filling the unknown parts gives the verdict.** -/
theorem same_of_verdict (h : verdict v w = some c) (hv : Filled v v') (hw : Filled w w') :
    same v' w' = c := by
  have hunknown := ne_unknown_of_verdict h
  -- both operands are known at the top, so filling them keeps their constructors
  induction v generalizing w v' w' c with
  | unknown => cases h
  | dynamic => exact same_of_verdict_plain (.inr rfl) h hv hw
  | null | bool | int | float | notANumber | text =>
    exact same_of_verdict_plain (.inl rfl) h hv hw
  | list xs ih =>
    obtain ⟨xs', rfl, hxs⟩ := filled_list_iff.mp hv
    cases w with
    | unknown => exact absurd rfl hunknown
    | list ys =>
      obtain ⟨ys', rfl, hys⟩ := filled_list_iff.mp hw
      rw [verdict] at h
      rw [same]
      exact sameItems_of_verdict
        (fun x hx _ _ _ _ h hx' hy' => ih x hx h hx' hy' (ne_unknown_of_verdict h)) h hxs hys
    | _ => cases hw <;> simpa [verdict, same, asNumber?] using h
  | tuple xs ih =>
    obtain ⟨xs', rfl, hxs⟩ := filled_tuple_iff.mp hv
    cases w with
    | unknown => exact absurd rfl hunknown
    | tuple ys =>
      obtain ⟨ys', rfl, hys⟩ := filled_tuple_iff.mp hw
      rw [verdict] at h
      rw [same]
      exact sameItems_of_verdict
        (fun x hx _ _ _ _ h hx' hy' => ih x hx h hx' hy' (ne_unknown_of_verdict h)) h hxs hys
    | _ => cases hw <;> simpa [verdict, same, asNumber?] using h
  | map es ih =>
    obtain ⟨es', rfl, hes⟩ := filled_map_iff.mp hv
    cases w with
    | unknown => exact absurd rfl hunknown
    | map fs =>
      obtain ⟨fs', rfl, hfs⟩ := filled_map_iff.mp hw
      rw [same, ← hes.length_eq, ← hfs.length_eq]
      rw [verdict] at h
      by_cases hlength : es.length = fs.length
      · rw [if_pos hlength] at h
        rw [hlength, beq_self_eq_true, Bool.true_and]
        exact sameEntries_of_verdict
          (fun e he _ _ _ _ h hv' hw' => ih e he h hv' hw' (ne_unknown_of_verdict h)) h hes hfs
      · rw [if_neg hlength] at h
        rw [beq_false_of_ne hlength, Bool.false_and]
        exact Option.some.inj h
    | _ => cases hw <;> simpa [verdict, same, asNumber?] using h

/-! ### What the verdict leaves open -/

theorem sameItems_self (h : ∀ x ∈ xs, same x x = true) : sameItems xs xs = true := by
  induction xs with
  | nil => simp [sameItems]
  | cons x xs ih =>
    obtain ⟨hx, hxs⟩ := List.forall_mem_cons.mp h
    rw [sameItems, hx, ih hxs]
    rfl

theorem IsProper.same_self (h : v.IsProper) : same v v = true := by
  induction h with
  | null | unknown | dynamic => simp [same]
  | bool b => exact (same_bool_bool b b).mpr rfl
  | int i => exact same_refl_int i
  | float h => simpa [same, asNumber?] using h
  | notANumber m => simp [same]
  | text s => simp [same]
  | list _ ih | tuple _ ih =>
    rw [same]
    exact sameItems_self ih
  | map hkeys _ ih =>
    rw [same, beq_self_eq_true, Bool.true_and, sameEntries_iff]
    intro e he
    exact ⟨e.2, (find?_eq_some_iff hkeys).mpr he, ih e he⟩

/-- A value that is different from another one. -/
def other : Value → Value
  | .null => .text ""
  | _ => .null

theorem same_other_left (v : Value) : same (other v) v = false := by
  cases v <;> simp [other, same, asNumber?]

theorem same_other_right (v : Value) : same v (other v) = false := by
  cases v <;> simp [other, same, asNumber?]

/-- Something unknown can be filled to be the same as a proper value, or to be another. -/
theorem exists_same_fill (hw : w.IsProper) (c : Bool) :
    ∃ u, same u w = c ∧ same w u = c := by
  cases c with
  | true => exact ⟨w, hw.same_self, hw.same_self⟩
  | false => exact ⟨other w, same_other_left w, same_other_right w⟩

theorem exists_sameItems
    (ih : ∀ x ∈ xs, ∀ y ∈ ys, ∀ {c}, verdict x y ≠ some (!c) →
      ∃ x' y', Filled x x' ∧ Filled y y' ∧ same x' y' = c)
    (h : verdictItems xs ys ≠ some (!c)) :
    ∃ xs' ys', List.Forall₂ Filled xs xs' ∧ List.Forall₂ Filled ys ys' ∧ sameItems xs' ys' = c := by
  induction xs generalizing ys with
  | nil =>
    refine ⟨[], ys, .nil, List.forall₂_same.mpr fun y _ => .refl y, ?_⟩
    cases ys with
    | nil =>
      simp only [verdictItems] at h
      simpa only [sameItems] using eq_of_some_ne h
    | cons y ys =>
      simp only [verdictItems] at h
      simpa only [sameItems] using eq_of_some_ne h
  | cons x xs ihItems =>
    cases ys with
    | nil =>
      refine ⟨x :: xs, [], List.forall₂_same.mpr fun x _ => .refl x, .nil, ?_⟩
      simp only [verdictItems] at h
      simpa only [sameItems] using eq_of_some_ne h
    | cons y ys =>
      -- each item is filled for the answer asked for, if its verdict admits it
      have hhead : ∃ x' y', Filled x x' ∧ Filled y y' ∧
          (verdict x y ≠ some (!c) → same x' y' = c) := by
        by_cases hopen : verdict x y = some (!c)
        · exact ⟨x, y, .refl x, .refl y, fun hne => absurd hopen hne⟩
        · obtain ⟨x', y', hx, hy, hsame⟩ := ih x List.mem_cons_self y List.mem_cons_self hopen
          exact ⟨x', y', hx, hy, fun _ => hsame⟩
      have hrest : ∃ xs' ys', List.Forall₂ Filled xs xs' ∧ List.Forall₂ Filled ys ys' ∧
          (verdictItems xs ys ≠ some (!c) → sameItems xs' ys' = c) := by
        by_cases hopen : verdictItems xs ys = some (!c)
        · exact ⟨xs, ys, List.forall₂_same.mpr fun x _ => .refl x,
            List.forall₂_same.mpr fun y _ => .refl y, fun hne => absurd hopen hne⟩
        · obtain ⟨xs', ys', hxs, hys, hsame⟩ := ihItems (fun x' hx' y' hy' =>
            ih x' (List.mem_cons_of_mem x hx') y' (List.mem_cons_of_mem y hy')) hopen
          exact ⟨xs', ys', hxs, hys, fun _ => hsame⟩
      obtain ⟨x', y', hx, hy, hsame⟩ := hhead
      obtain ⟨xs', ys', hxs, hys, hsames⟩ := hrest
      rw [verdictItems] at h
      refine ⟨x' :: xs', y' :: ys', .cons hx hxs, .cons hy hys, ?_⟩
      rw [sameItems]
      exact and_of_both_ne h hsame hsames

/-- Entries with the same keys and the given values. -/
def withValues (values : String → Value) (entries : List (String × Value)) :
    List (String × Value) :=
  entries.map fun e => (e.1, values e.1)

theorem find?_withValues (values : String → Value) (key : String)
    (entries : List (String × Value)) :
    find? key (withValues values entries) = (find? key entries).map fun _ => values key := by
  induction entries with
  | nil => rfl
  | cons e rest ih =>
    obtain ⟨k, v⟩ := e
    show find? key ((k, values k) :: withValues values rest) = _
    rw [find?_cons, find?_cons, ih]
    by_cases hkey : k = key
    · simp [hkey]
    · simp [hkey]

theorem filled_withValues {values : String → Value} (h : ∀ e ∈ es, Filled e.2 (values e.1)) :
    List.Forall₂ FilledEntry es (withValues values es) :=
  List.forall₂_map_right_iff.mpr (List.forall₂_same.mpr fun e he => ⟨rfl, h e he⟩)

theorem sameEntries_withValues {left right : String → Value}
    (hsame : ∀ e ∈ es, ∀ w, find? e.1 fs = some w → verdict e.2 w ≠ some (!c) →
      same (left e.1) (right e.1) = c)
    (h : verdictEntries es fs ≠ some (!c)) :
    sameEntries (withValues left es) (withValues right fs) = c := by
  induction es with
  | nil =>
    rw [verdictEntries] at h
    show sameEntries [] (withValues right fs) = c
    rw [sameEntries]
    exact eq_of_some_ne h
  | cons e rest ih =>
    obtain ⟨k, v⟩ := e
    obtain ⟨hhead, hrest⟩ := List.forall_mem_cons.mp hsame
    rw [verdictEntries] at h
    show sameEntries ((k, left k) :: withValues left rest) (withValues right fs) = c
    rw [sameEntries]
    refine and_of_both_ne h (fun hopen => ?_) (ih hrest)
    rw [find?_withValues]
    cases hfind : find? k fs with
    | none =>
      -- a key without a match differs, and nothing else was asked for
      simp only [hfind] at hopen
      cases c with
      | true => exact absurd rfl hopen
      | false => rfl
    | some w =>
      simp only [hfind] at hopen
      exact hhead w hfind hopen

/-- Under each key both values can be filled for the answer asked for, if the verdict on them
leaves it open. -/
theorem exists_filled_under (hes : (es.map Prod.fst).Nodup) (hfs : (fs.map Prod.fst).Nodup)
    (ih : ∀ e ∈ es, ∀ f ∈ fs, ∀ {c}, verdict e.2 f.2 ≠ some (!c) →
      ∃ v' w', Filled e.2 v' ∧ Filled f.2 w' ∧ same v' w' = c) (key : String) :
    ∃ v' w', (∀ v, (key, v) ∈ es → Filled v v') ∧ (∀ w, (key, w) ∈ fs → Filled w w') ∧
      ∀ v w, (key, v) ∈ es → (key, w) ∈ fs → verdict v w ≠ some (!c) → same v' w' = c := by
  by_cases hopen : ∃ v w, (key, v) ∈ es ∧ (key, w) ∈ fs ∧ verdict v w ≠ some (!c)
  · obtain ⟨v, w, hv, hw, hvw⟩ := hopen
    obtain ⟨v', w', hfilled, hfilled', hsame⟩ := ih _ hv _ hw hvw
    refine ⟨v', w', ?_, ?_, fun _ _ _ _ _ => hsame⟩
    · intro u hu
      obtain rfl : u = v := congrArg Prod.snd (List.inj_on_of_nodup_map hes hu hv rfl)
      exact hfilled
    · intro u hu
      obtain rfl : u = w := congrArg Prod.snd (List.inj_on_of_nodup_map hfs hu hw rfl)
      exact hfilled'
  · -- nothing is asked for, so each value may stay as it is
    refine ⟨(find? key es).getD .null, (find? key fs).getD .null, ?_, ?_, ?_⟩
    · intro v hv
      rw [(find?_eq_some_iff hes).mpr hv]
      exact .refl v
    · intro w hw
      rw [(find?_eq_some_iff hfs).mpr hw]
      exact .refl w
    · intro v w hv hw hvw
      exact absurd ⟨v, w, hv, hw, hvw⟩ hopen

theorem exists_same_map (hes : (es.map Prod.fst).Nodup) (hfs : (fs.map Prod.fst).Nodup)
    (ih : ∀ e ∈ es, ∀ f ∈ fs, ∀ {c}, verdict e.2 f.2 ≠ some (!c) →
      ∃ v' w', Filled e.2 v' ∧ Filled f.2 w' ∧ same v' w' = c)
    (h : verdict (.map es) (.map fs) ≠ some (!c)) :
    ∃ es' fs', List.Forall₂ FilledEntry es es' ∧ List.Forall₂ FilledEntry fs fs' ∧
      same (.map es') (.map fs') = c := by
  rw [verdict] at h
  by_cases hlength : es.length = fs.length
  · rw [if_pos hlength] at h
    choose left right hleft hright hsame using exists_filled_under hes hfs ih
    refine ⟨withValues left es, withValues right fs, filled_withValues fun e he => hleft _ _ he,
      filled_withValues fun f hf => hright _ _ hf, ?_⟩
    rw [same, withValues, withValues, List.length_map, List.length_map, hlength,
      beq_self_eq_true, Bool.true_and]
    refine sameEntries_withValues (fun e he w hw => ?_) h
    exact hsame e.1 e.2 w he ((find?_eq_some_iff hfs).mp hw)
  · rw [if_neg hlength] at h
    refine ⟨es, fs, List.forall₂_same.mpr fun e _ => ⟨rfl, .refl e.2⟩,
      List.forall₂_same.mpr fun f _ => ⟨rfl, .refl f.2⟩, ?_⟩
    rw [same, beq_false_of_ne hlength, Bool.false_and]
    cases c with
    | true => exact absurd rfl h
    | false => rfl

theorem exists_same_unknown (hv : v.IsProper) (c : Bool) :
    ∃ v' w', Filled v v' ∧ Filled .unknown w' ∧ same v' w' = c := by
  obtain ⟨u, _, hu⟩ := exists_same_fill hv c
  exact ⟨v, u, .refl v, .fill u, hu⟩

theorem exists_same_plain (hplain : v.IsPlain) (hv : v.IsProper) (h : verdict v w ≠ some (!c)) :
    ∃ v' w', Filled v v' ∧ Filled w w' ∧ same v' w' = c := by
  by_cases hunknown : w = .unknown
  · rw [hunknown]
    exact exists_same_unknown hv c
  · refine ⟨v, w, .refl v, .refl w, ?_⟩
    rw [verdict_of_isPlain hplain hunknown] at h
    exact eq_of_some_ne h

/-- **What the verdict leaves open, some way of filling the unknown parts brings about.** -/
theorem exists_same (hv : v.IsProper) (hw : w.IsProper) (h : verdict v w ≠ some (!c)) :
    ∃ v' w', Filled v v' ∧ Filled w w' ∧ same v' w' = c := by
  -- an unknown operand is made a copy of the other one or something else; where the sorts
  -- differ, nothing has to be filled
  induction hv generalizing w c with
  | unknown =>
    obtain ⟨u, hu, _⟩ := exists_same_fill hw c
    exact ⟨u, w, .fill u, .refl w, hu⟩
  | dynamic => exact exists_same_plain (.inr rfl) .dynamic h
  | null => exact exists_same_plain (.inl rfl) .null h
  | bool b => exact exists_same_plain (.inl rfl) (.bool b) h
  | int i => exact exists_same_plain (.inl rfl) (.int i) h
  | float hx => exact exists_same_plain (.inl rfl) (.float hx) h
  | notANumber m => exact exists_same_plain (.inl rfl) (.notANumber m) h
  | text s => exact exists_same_plain (.inl rfl) (.text s) h
  | list hxs ih =>
    cases hw with
    | unknown => exact exists_same_unknown (.list hxs) c
    | list hys =>
      rw [verdict] at h
      obtain ⟨xs', ys', hxs', hys', hsame⟩ :=
        exists_sameItems (fun x hx y hy _ hxy => ih x hx (hys y hy) hxy) h
      exact ⟨.list xs', .list ys', .list hxs', .list hys', by rwa [same]⟩
    | _ =>
      exact ⟨_, _, .refl _, .refl _, eq_of_some_ne h⟩
  | tuple hxs ih =>
    cases hw with
    | unknown => exact exists_same_unknown (.tuple hxs) c
    | tuple hys =>
      rw [verdict] at h
      obtain ⟨xs', ys', hxs', hys', hsame⟩ :=
        exists_sameItems (fun x hx y hy _ hxy => ih x hx (hys y hy) hxy) h
      exact ⟨.tuple xs', .tuple ys', .tuple hxs', .tuple hys', by rwa [same]⟩
    | _ =>
      exact ⟨_, _, .refl _, .refl _, eq_of_some_ne h⟩
  | map hkeys hvalues ih =>
    cases hw with
    | unknown => exact exists_same_unknown (.map hkeys hvalues) c
    | map hkeys' hvalues' =>
      obtain ⟨es', fs', hes, hfs, hsame⟩ := exists_same_map hkeys hkeys'
        (fun e he f hf _ hef => ih e he (hvalues' f hf) hef) h
      exact ⟨.map es', .map fs', filled_map_iff.mpr ⟨es', rfl, hes⟩,
        filled_map_iff.mpr ⟨fs', rfl, hfs⟩, hsame⟩
    | _ =>
      exact ⟨_, _, .refl _, .refl _, eq_of_some_ne h⟩

/-! ### Operands as a whole -/

theorem Filled.sort_eq (h : Filled v w) (hv : v ≠ .unknown) :
    w ≠ .unknown ∧ w.isBool = v.isBool ∧ ∀ m, w = .notANumber m ↔ v = .notANumber m := by
  cases h with
  | fill => exact absurd rfl hv
  | refl => exact ⟨hv, rfl, fun _ => Iff.rfl⟩
  | list | tuple | map => simp [isBool]

/-- Operands that are not unknown themselves are compared by their sort, then part by part. -/
theorem equalVerdict_cases (hv : v ≠ .unknown) (hw : w ≠ .unknown) :
    (equalVerdict v w = some false ∧
        ∀ v' w', Filled v v' → Filled w w' → equal v' w' = false) ∨
      (equalVerdict v w = verdict v w ∧
        ∀ v' w', Filled v v' → Filled w w' → equal v' w' = same v' w') := by
  have hequal : ∀ {v w : Value}, (∀ m, v ≠ .notANumber m) →
      equal v w = (v.isBool == w.isBool && same v w) := by
    intro v w hnumber
    cases v with
    | notANumber m => exact absurd rfl (hnumber m)
    | _ => rfl
  by_cases hnumber : ∃ m, v = .notANumber m
  · obtain ⟨m, rfl⟩ := hnumber
    refine .inl ⟨?_, fun v' w' hv' _ => ?_⟩
    · cases w with
      | unknown => exact absurd rfl hw
      | _ => rfl
    · rw [((hv'.sort_eq hv).2.2 m).mpr rfl]
      rfl
  · have hverdict : equalVerdict v w = if v.isBool = w.isBool then verdict v w else some false := by
      rw [equalVerdict]
      · exact hv
      · exact fun m h => hnumber ⟨m, h⟩
      · exact hw
    have hfilled : ∀ v' w', Filled v v' → Filled w w' →
        equal v' w' = (v.isBool == w.isBool && same v' w') := by
      intro v' w' hv' hw'
      obtain ⟨_, hbool, hnumber'⟩ := hv'.sort_eq hv
      rw [hequal fun m h => hnumber ⟨m, (hnumber' m).mp h⟩, hbool, (hw'.sort_eq hw).2.1]
    by_cases hbool : v.isBool = w.isBool
    · refine .inr ⟨by rw [hverdict, if_pos hbool], fun v' w' hv' hw' => ?_⟩
      rw [hfilled v' w' hv' hw', hbool, beq_self_eq_true, Bool.true_and]
    · refine .inl ⟨by rw [hverdict, if_neg hbool], fun v' w' hv' hw' => ?_⟩
      rw [hfilled v' w' hv' hw', beq_false_of_ne hbool, Bool.false_and]

theorem ne_unknown_of_equalVerdict (h : equalVerdict v w = some c) :
    v ≠ .unknown ∧ w ≠ .unknown := by
  constructor
  · rintro rfl
    cases h
  · rintro rfl
    cases v <;> cases h

/-- Operands are equal however they are filled exactly when the verdict says so. -/
theorem equal_filled_iff (hv : v.IsProper) (hw : w.IsProper) (hv' : v ≠ .unknown)
    (hw' : w ≠ .unknown) :
    (∀ v' w', Filled v v' → Filled w w' → equal v' w' = b) ↔ equalVerdict v w = some b := by
  rcases equalVerdict_cases hv' hw' with ⟨hverdict, hfilled⟩ | ⟨hverdict, hfilled⟩
  · rw [hverdict, Option.some.injEq]
    constructor
    · intro h
      rw [← h v w (.refl v) (.refl w), hfilled v w (.refl v) (.refl w)]
    · rintro rfl
      exact hfilled
  · rw [hverdict]
    constructor
    · intro h
      -- otherwise the other answer could be had as well
      by_contra hne
      have hopen : verdict v w ≠ some (!!b) := by rwa [Bool.not_not]
      obtain ⟨v', w', hfill, hfill', hsame⟩ := exists_same hv hw hopen
      have hb := (hfilled v' w' hfill hfill').symm.trans (h v' w' hfill hfill')
      rw [hsame] at hb
      cases b <;> cases hb
    · intro h v' w' hfill hfill'
      rw [hfilled v' w' hfill hfill']
      exact same_of_verdict h hfill hfill'

end Value

namespace Evaluation

open Config (Diagnostics)
open Expression (Origin)
open Template (Node)
open Value (Filled IsProper equalVerdict)

/-- `Compares l r b` holds when `==` gives `b` and `!=` the opposite on any operands that
have the values `l` and `r`. -/
def Compares (l r : Value) (b : Bool) : Prop :=
  ∀ (scope : Scope) (p : Template.Pos) (left right : Node Origin) (ws ws₁ ws₂ : Diagnostics),
    eval scope left ws = .ok (l, ws₁) → eval scope right ws₁ = .ok (r, ws₂) →
      eval scope (.binary p .equal left right) ws = .ok (.bool b, ws₂) ∧
        eval scope (.binary p .notEqual left right) ws = .ok (.bool (!b), ws₂)

variable {l r : Value} {b : Bool}

/-- Operands are compared unless one of them is unknown itself. -/
theorem compares_iff : Compares l r b ↔ l ≠ .unknown ∧ r ≠ .unknown ∧ l.equal r = b := by
  constructor
  · intro h
    have hliteral : ∀ v, eval .empty (.literal .zero v) [] = .ok (v, []) := fun v => by
      rw [eval]
      rfl
    have hgiven := (h .empty .zero _ _ _ _ _ (hliteral l) (hliteral r)).1
    rw [eval_binary rfl (hliteral l) (hliteral r), applyBinary] at hgiven
    by_cases hunknown : (l.isUnknown || r.isUnknown) = true
    · rw [if_pos hunknown] at hgiven
      cases hgiven
    · rw [if_neg hunknown] at hgiven
      refine ⟨?_, ?_, ?_⟩
      · rintro rfl
        exact hunknown rfl
      · rintro rfl
        exact hunknown (Bool.or_true _)
      · cases hgiven
        rfl
  · rintro ⟨hl, hr, rfl⟩ scope p left right ws ws₁ ws₂ hleft hright
    have hunknown : (l.isUnknown || r.isUnknown) = false := by
      cases l <;> cases r <;> first | rfl | contradiction
    constructor
    · rw [eval_binary rfl hleft hright, applyBinary, hunknown]
      rfl
    · rw [eval_binary rfl hleft hright, applyBinary, hunknown]
      rfl

/-- **When a comparison is settled.**  Operands that are not unknown themselves are always
compared, whatever is unknown inside them.  The answer is kept by every way of filling the
unknown parts exactly when it is the verdict on what is known. -/
theorem compares_filled_iff (hl : l.IsProper) (hr : r.IsProper) :
    ((∃ b, Compares l r b) ↔ l ≠ .unknown ∧ r ≠ .unknown) ∧
      ∀ b, (∀ l' r', Filled l l' → Filled r r' → Compares l' r' b) ↔ equalVerdict l r = some b := by
  refine ⟨?_, fun b => ?_⟩
  · constructor
    · rintro ⟨b, h⟩
      obtain ⟨hl, hr, _⟩ := compares_iff.mp h
      exact ⟨hl, hr⟩
    · rintro ⟨hl, hr⟩
      exact ⟨l.equal r, compares_iff.mpr ⟨hl, hr, rfl⟩⟩
  · constructor
    · intro h
      obtain ⟨hl', hr', _⟩ := compares_iff.mp (h l r (.refl l) (.refl r))
      refine (Value.equal_filled_iff hl hr hl' hr').mp fun l' r' hfill hfill' => ?_
      exact (compares_iff.mp (h l' r' hfill hfill')).2.2
    · intro h l' r' hfill hfill'
      obtain ⟨hl', hr'⟩ := Value.ne_unknown_of_equalVerdict h
      refine compares_iff.mpr ⟨(hfill.sort_eq hl').1, (hfill'.sort_eq hr').1, ?_⟩
      exact (Value.equal_filled_iff hl hr hl' hr').mpr h l' r' hfill hfill'

/-- Two lists that differ in their second items stay different, whatever the first item of
the one turns out to be. -/
theorem compares_filled_differing :
    (Value.list [.unknown, .int 2]).IsProper ∧ (Value.list [.int 1, .int 3]).IsProper ∧
      ∀ l' r', Filled (.list [.unknown, .int 2]) l' → Filled (.list [.int 1, .int 3]) r' →
        Compares l' r' false := by
  have hl : (Value.list [.unknown, .int 2]).IsProper :=
    .list (by simp [IsProper.unknown, IsProper.int])
  have hr : (Value.list [.int 1, .int 3]).IsProper := .list (by simp [IsProper.int])
  refine ⟨hl, hr, ((compares_filled_iff hl hr).2 false).mpr ?_⟩
  simp [equalVerdict, Value.isBool, Value.verdict, Value.verdictItems, Value.both, Value.same,
    Value.asNumber?, Number.equal_int]

/-- A scope in which `a` is a list of one given item, and `b` a list of 1. -/
private def besideOne (item : Value) : Scope :=
  ⟨[("a", .ofValue (.list [item])), ("b", .ofValue (.list [.int 1]))], [], none⟩

/-- In `${a == b}` a list of something unknown is different from a list of 1; once the
unknown turns out to be 1, they are equal. -/
theorem eval_equal_unknownInList :
    eval (besideOne .unknown) (.binary .zero .equal (.access none .zero "a")
        (.access none .zero "b")) [] = .ok (.bool false, []) ∧
      Filled (.list [.unknown]) (.list [.int 1]) ∧
      eval (besideOne (.int 1)) (.binary .zero .equal (.access none .zero "a")
        (.access none .zero "b")) [] = .ok (.bool true, []) := by
  refine ⟨rfl, ?_, rfl⟩
  exact .list (.cons (.fill (.int 1)) .nil)

end Evaluation

end Interpolation
