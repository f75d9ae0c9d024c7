/-
What template equality decides.

* `Alike` — two values have the same structure, a bool being equal to the same bool only;
* `same_iff` — equality inside collections also takes a bool for the number it counts as;
* `eval_equal_iff` — the operators `==` and `!=` keep a bool and a value that is none apart,
  and for the rest decide what equality inside collections does.

Design notes: `Alike` goes by positions in a list and by keys in a map, so the order of the
entries of a map has no part in it.  Its flag says whether bools are mixed with numbers: the
relation without mixing is the one that keeps them apart at every depth.
-/
import Interpolation.Evaluation.Meaning
import Interpolation.Proofs.Evaluation.Computation
import Mathlib.Data.List.Forall2
import Mathlib.Data.List.Perm.Subperm

namespace Interpolation

namespace Value

/-- Values made of null, bools, whole numbers, texts, lists and maps; a map has each key
once. -/
inductive IsData : Value → Prop
  | null : IsData .null
  | bool (b : Bool) : IsData (.bool b)
  | int (i : Int) : IsData (.int i)
  | text (s : String) : IsData (.text s)
  | list {items : List Value} (h : ∀ v ∈ items, IsData v) : IsData (.list items)
  | map {entries : List (String × Value)} (hkeys : (entries.map Prod.fst).Nodup)
      (h : ∀ e ∈ entries, IsData e.2) : IsData (.map entries)

/-- The number that a bool counts as. -/
def countOf (b : Bool) : Int :=
  if b then 1 else 0

/-- Two values have the same structure.  If `mixed`, a bool has that of the number it counts
as, too. -/
inductive Alike (mixed : Bool) : Value → Value → Prop
  | null : Alike mixed .null .null
  | bool (b : Bool) : Alike mixed (.bool b) (.bool b)
  | int (i : Int) : Alike mixed (.int i) (.int i)
  | text (s : String) : Alike mixed (.text s) (.text s)
  | list {xs ys : List Value} (hlength : xs.length = ys.length)
      (h : ∀ (i : Nat) x y, xs[i]? = some x → ys[i]? = some y → Alike mixed x y) :
      Alike mixed (.list xs) (.list ys)
  | map {es fs : List (String × Value)}
      (hkeys : ∀ key, key ∈ es.map Prod.fst ↔ key ∈ fs.map Prod.fst)
      (h : ∀ key v w, (key, v) ∈ es → (key, w) ∈ fs → Alike mixed v w) :
      Alike mixed (.map es) (.map fs)
  | boolNumber (hmixed : mixed = true) (b : Bool) : Alike mixed (.bool b) (.int (countOf b))
  | numberBool (hmixed : mixed = true) (b : Bool) : Alike mixed (.int (countOf b)) (.bool b)

/-- Mixing bools with numbers tells no more values apart. -/
theorem Alike.mix {mixed : Bool} {v w : Value} (h : Alike mixed v w) : Alike true v w := by
  induction h with
  | null => exact .null
  | bool b => exact .bool b
  | int i => exact .int i
  | text s => exact .text s
  | list hlength _ ih => exact .list hlength ih
  | map hkeys _ ih => exact .map hkeys ih
  | boolNumber _ b => exact .boolNumber rfl b
  | numberBool _ b => exact .numberBool rfl b

/-- A bool and a value that is none are only alike where they are mixed. -/
theorem Alike.isBool_eq {v w : Value} (h : Alike false v w) : v.isBool = w.isBool := by
  cases h with
  | boolNumber hmixed | numberBool hmixed => cases hmixed
  | _ => rfl

/-! ### Numbers and bools -/

theorem same_bool_bool (b c : Bool) : same (.bool b) (.bool c) = true ↔ b = c := by
  cases b <;> cases c <;> simp [same, asNumber?, Number.equal_int]

theorem same_int_int (i j : Int) : same (.int i) (.int j) = true ↔ i = j := by
  simp [same, asNumber?, Number.equal_int]

theorem same_bool_number (b : Bool) (i : Int) : same (.bool b) (.int i) = true ↔ countOf b = i := by
  rw [same_bool_int, decide_eq_true_iff, countOf]

theorem same_number_bool (i : Int) (b : Bool) : same (.int i) (.bool b) = true ↔ i = countOf b := by
  simp [same, asNumber?, Number.equal_int, countOf]

/-! ### Collections -/

theorem find?_eq_some_iff {entries : List (String × Value)} (h : (entries.map Prod.fst).Nodup)
    {key : String} {v : Value} : find? key entries = some v ↔ (key, v) ∈ entries := by
  induction entries with
  | nil => simp
  | cons e rest ih =>
    obtain ⟨k, u⟩ := e
    obtain ⟨hfresh, hrest⟩ := List.nodup_cons.mp h
    rw [find?_cons, List.mem_cons, Prod.mk.injEq]
    by_cases hkey : k = key
    · subst hkey
      have hnone : (k, v) ∉ rest := fun hmem => hfresh (List.mem_map.mpr ⟨_, hmem, rfl⟩)
      simp [hnone, eq_comm]
    · simp [hkey, Ne.symm hkey, ih hrest]

theorem sameItems_iff {xs ys : List Value}
    (h : ∀ x ∈ xs, ∀ y ∈ ys, same x y = true ↔ Alike true x y) :
    sameItems xs ys = true ↔ List.Forall₂ (Alike true) xs ys := by
  induction xs generalizing ys with
  | nil => cases ys <;> simp [sameItems]
  | cons x xs ih =>
    cases ys with
    | nil => simp [sameItems]
    | cons y ys =>
      have hrest := ih fun x' hx' y' hy' =>
        h x' (List.mem_cons_of_mem x hx') y' (List.mem_cons_of_mem y hy')
      rw [sameItems, Bool.and_eq_true, h x List.mem_cons_self y List.mem_cons_self, hrest,
        List.forall₂_cons]

theorem sameEntries_iff {es fs : List (String × Value)} :
    sameEntries es fs = true ↔
      ∀ e ∈ es, ∃ w, find? e.1 fs = some w ∧ same e.2 w = true := by
  induction es with
  | nil => simp [sameEntries]
  | cons e rest ih =>
    obtain ⟨key, v⟩ := e
    rw [sameEntries, Bool.and_eq_true, ih, List.forall_mem_cons]
    cases find? key fs <;> simp

/-- Lists are alike when they are item by item. -/
theorem alike_list_iff {mixed : Bool} {xs ys : List Value} :
    Alike mixed (.list xs) (.list ys) ↔ List.Forall₂ (Alike mixed) xs ys := by
  rw [List.forall₂_iff_get]
  constructor
  · intro h
    cases h with
    | list hlength hitems =>
      refine ⟨hlength, fun i hx hy => ?_⟩
      exact hitems i _ _ (List.getElem?_eq_getElem hx) (List.getElem?_eq_getElem hy)
  · rintro ⟨hlength, hitems⟩
    refine .list hlength fun i x y hx hy => ?_
    obtain ⟨hi, rfl⟩ := List.getElem?_eq_some_iff.mp hx
    obtain ⟨hj, rfl⟩ := List.getElem?_eq_some_iff.mp hy
    exact hitems i hi hj

/-- A map has the same keys as another of the same size in which all of its keys occur. -/
theorem mem_keys_iff {es fs : List (String × Value)} (hes : (es.map Prod.fst).Nodup)
    (hlength : es.length = fs.length) (hsub : es.map Prod.fst ⊆ fs.map Prod.fst) (key : String) :
    key ∈ es.map Prod.fst ↔ key ∈ fs.map Prod.fst := by
  have hle : (fs.map Prod.fst).length ≤ (es.map Prod.fst).length := by simp [hlength]
  exact ((hes.subperm hsub).perm_of_length_le hle).mem_iff

/-- Maps are compared by their keys, each key having one value. -/
theorem same_map_iff {es fs : List (String × Value)} (hes : (es.map Prod.fst).Nodup)
    (hfs : (fs.map Prod.fst).Nodup)
    (h : ∀ e ∈ es, ∀ f ∈ fs, same e.2 f.2 = true ↔ Alike true e.2 f.2) :
    same (.map es) (.map fs) = true ↔ Alike true (.map es) (.map fs) := by
  rw [same, Bool.and_eq_true, beq_iff_eq, sameEntries_iff]
  constructor
  · rintro ⟨hlength, hentries⟩
    refine .map (mem_keys_iff hes hlength fun key hkey => ?_) fun key v w hv hw => ?_
    · obtain ⟨e, he, rfl⟩ := List.mem_map.mp hkey
      obtain ⟨w, hw, _⟩ := hentries e he
      exact List.mem_map.mpr ⟨_, (find?_eq_some_iff hfs).mp hw, rfl⟩
    · obtain ⟨w', hw', hsame⟩ := hentries _ hv
      obtain rfl : w' = w := Option.some.inj (hw'.symm.trans ((find?_eq_some_iff hfs).mpr hw))
      exact (h _ hv _ hw).mp hsame
  · intro halike
    cases halike with
    | map hkeys hvalues =>
      have hlength := ((List.perm_ext_iff_of_nodup hes hfs).mpr hkeys).length_eq
      refine ⟨by simpa using hlength, fun e he => ?_⟩
      obtain ⟨f, hf, hkey⟩ := List.mem_map.mp ((hkeys e.1).mp (List.mem_map_of_mem he))
      have hfound : (e.1, f.2) ∈ fs := hkey ▸ hf
      exact ⟨f.2, (find?_eq_some_iff hfs).mpr hfound, (h e he _ hfound).mpr
        (hvalues e.1 e.2 f.2 he hfound)⟩

/-- **Equality inside collections mixes bools with numbers.** -/
theorem same_iff {v w : Value} (hv : IsData v) (hw : IsData w) :
    same v w = true ↔ Alike true v w := by
  -- values of different sorts are neither the same nor alike
  have hnot : ∀ {b : Bool} {p : Prop}, b = false → ¬ p → (b = true ↔ p) :=
    fun hb hp => by simp [hb, hp]
  induction hv generalizing w with
  | null =>
    cases hw with
    | null => exact iff_of_true (by simp [same]) .null
    | _ => exact hnot (by simp [same, asNumber?]) (by rintro ⟨⟩)
  | bool b =>
    cases hw with
    | bool c =>
      rw [same_bool_bool]
      exact ⟨fun h => h ▸ .bool b, fun h => by cases h; rfl⟩
    | int i =>
      rw [same_bool_number]
      exact ⟨fun h => h ▸ .boolNumber rfl b, fun h => by cases h; rfl⟩
    | _ => exact hnot (by simp [same, asNumber?]) (by rintro ⟨⟩)
  | int i =>
    cases hw with
    | bool c =>
      rw [same_number_bool]
      exact ⟨fun h => h ▸ .numberBool rfl c, fun h => by cases h; rfl⟩
    | int j =>
      rw [same_int_int]
      exact ⟨fun h => h ▸ .int i, fun h => by cases h; rfl⟩
    | _ => exact hnot (by simp [same, asNumber?]) (by rintro ⟨⟩)
  | text s =>
    cases hw with
    | text t =>
      rw [same, beq_iff_eq]
      exact ⟨fun h => h ▸ .text s, fun h => by cases h; rfl⟩
    | _ => exact hnot (by simp [same, asNumber?]) (by rintro ⟨⟩)
  | list _ ih =>
    cases hw with
    | list hys =>
      rw [same, alike_list_iff]
      exact sameItems_iff fun x hx y hy => ih x hx (hys y hy)
    | _ => exact hnot (by simp [same, asNumber?]) (by rintro ⟨⟩)
  | map hes _ ih =>
    cases hw with
    | map hfs hvalues => exact same_map_iff hes hfs fun e he f hf => ih e he (hvalues f hf)
    | _ => exact hnot (by simp [same, asNumber?]) (by rintro ⟨⟩)

theorem equal_iff {l r : Value} (hl : IsData l) (hr : IsData r) :
    equal l r = true ↔ l.isBool = r.isBool ∧ Alike true l r := by
  have hequal : equal l r = (l.isBool == r.isBool && same l r) := by
    cases hl <;> rfl
  rw [hequal, Bool.and_eq_true, beq_iff_eq, same_iff hl hr]

end Value

namespace Evaluation

open Config (Diagnostics)
open Expression (Origin)
open Template (Node BinaryOp)
open Value (IsData Alike)

variable {scope : Scope} {left right : Node Origin} {l r : Value} {ws ws₁ ws₂ : Diagnostics}

/-- An operator that needs both operands is applied to their values. -/
theorem eval_binary {op : BinaryOp} (hop : isLazy op = false)
    (hleft : eval scope left ws = .ok (l, ws₁)) (hright : eval scope right ws₁ = .ok (r, ws₂))
    (p : Template.Pos) :
    eval scope (.binary p op left right) ws = Eval.ofExcept (applyBinary op l r) ws₂ := by
  rw [eval, Eval.bind_apply, hleft, hop]
  show (eval scope right >>= fun w => Eval.ofExcept (applyBinary op l w)) ws₁ = _
  rw [Eval.bind_apply, hright]
  rfl

/-- **What `==` and `!=` decide.**  Operands of which one is a bool and the other is none are
different.  Other operands are equal when they have the same structure, except that inside
collections a bool and the number it counts as are taken for one another; so what has the same
structure with the bools kept apart is always equal. -/
theorem eval_equal_iff (hl : l.IsData) (hr : r.IsData)
    (hleft : eval scope left ws = .ok (l, ws₁)) (hright : eval scope right ws₁ = .ok (r, ws₂))
    (p : Template.Pos) :
    ∃ b, eval scope (.binary p .equal left right) ws = .ok (.bool b, ws₂) ∧
      eval scope (.binary p .notEqual left right) ws = .ok (.bool (!b), ws₂) ∧
      (b = true ↔ l.isBool = r.isBool ∧ Alike true l r) ∧ (Alike false l r → b = true) := by
  have hunknown : (l.isUnknown || r.isUnknown) = false := by
    cases hl <;> cases hr <;> rfl
  have hequal := Value.equal_iff hl hr
  refine ⟨l.equal r, ?_, ?_, hequal, fun halike => hequal.mpr ⟨halike.isBool_eq, halike.mix⟩⟩
  · rw [eval_binary rfl hleft hright, applyBinary, hunknown]
    rfl
  · rw [eval_binary rfl hleft hright, applyBinary, hunknown]
    rfl

/-- A map that holds a bool in a list, beside null. -/
private def flagged : Value :=
  .map [("on", .list [.bool true, .text "x"]), ("off", .null)]

/-- The same map in another order, with the number that the bool counts as. -/
private def numbered : Value :=
  .map [("off", .null), ("on", .list [.int 1, .text "x"])]

/-- Two maps that differ in the order of their entries, and in a bool and its number. -/
theorem eval_equal_flagged :
    flagged.IsData ∧ numbered.IsData ∧
      ∃ b, eval .empty
          (.binary .zero .equal (.literal .zero flagged) (.literal .zero numbered)) [] =
            .ok (.bool b, []) ∧
        (b = true ↔ flagged.isBool = numbered.isBool ∧ Alike true flagged numbered) := by
  have hflagged : flagged.IsData := by
    refine .map (by decide) (List.forall_mem_cons.mpr ⟨.list ?_, by simp [IsData.null]⟩)
    simp [IsData.bool, IsData.text]
  have hnumbered : numbered.IsData := by
    refine .map (by decide) (List.forall_mem_cons.mpr ⟨.null, ?_⟩)
    simp only [List.mem_singleton, forall_eq]
    refine .list ?_
    simp [IsData.int, IsData.text]
  have hliteral : ∀ v, eval .empty (.literal .zero v) [] = .ok (v, []) := fun v => by
    rw [eval]
    rfl
  obtain ⟨b, hb, _, hiff, _⟩ :=
    eval_equal_iff hflagged hnumbered (hliteral _) (hliteral _) .zero
  exact ⟨hflagged, hnumbered, b, hb, hiff⟩

/-- A scope in which `a` is a list of a bool, and `b` one of the number it counts as. -/
private def mixing : Scope :=
  ⟨[("a", .ofValue (.list [.bool true])), ("b", .ofValue (.list [.int 1]))], [], none⟩

/-- In `${a == b}` a list of `true` is equal to a list of 1, but they are not alike. -/
theorem eval_equal_boolInList :
    eval mixing (.binary .zero .equal (.access none .zero "a") (.access none .zero "b")) [] =
        .ok (.bool true, []) ∧
      eval mixing (.access none .zero "a") [] = .ok (.list [.bool true], []) ∧
      eval mixing (.access none .zero "b") [] = .ok (.list [.int 1], []) ∧
      ¬ Alike false (.list [.bool true]) (.list [.int 1]) := by
  refine ⟨rfl, rfl, rfl, fun halike => ?_⟩
  cases halike with
  | list _ hitems => cases hitems 0 _ _ rfl rfl with
    | boolNumber hmixed => cases hmixed

end Evaluation

end Interpolation
