/-
Where clusters end.

* `clusters_line` — of the clusters of a line with its line feed, the last is the line
  feed, or a carriage return with it, and no other has a line feed;
* `clusters_append_line` — behind a line feed clusters are formed afresh;
* `clusters_single` — characters that never share a cluster are clusters of one character;
* `count_le_length` — there are no more clusters than characters.

Design notes: a character joins a carriage return only if it is a line feed, and a line
feed joins nothing but a carriage return.  A carriage return joins nothing itself, so
where it is the last character read, it is the whole current cluster.  Without a line feed
it stands alone, as a control and a character without a role of its own do among
themselves (`IsSingle`), and that is all of ASCII.
-/
import Interpolation.Text.Grapheme
import Mathlib.Data.List.Basic

namespace Interpolation.Grapheme

theorem syllableRole_ne_carriageReturn (n : Nat) : syllableRole n ≠ .carriageReturn := by
  unfold syllableRole
  split <;> simp

theorem eq_of_role_carriageReturn {c : Char} : role c = .carriageReturn → c = '\r' := by
  fun_cases role c with
  | case1 h => exact fun _ => h
  | _ => simp [syllableRole_ne_carriageReturn]

theorem joins_lineFeed (b : Before) : joins b .lineFeed = decide (b.role = .carriageReturn) := by
  rcases b with ⟨r, p, odd⟩
  cases r <;> rfl

theorem joins_carriageReturn (b : Before) : joins b .carriageReturn = false := by
  rcases b with ⟨r, p, odd⟩
  cases r <;> rfl

/-- The clusters of the rest of a line. -/
theorem clustersAfter_line {b : Before} {current cs : List Char} (hcs : '\n' ∉ cs)
    (hcurrent : '\n' ∉ current) (hrole : b.role = .carriageReturn → current = ['\r']) :
    ∃ before last, clustersAfter b current (cs ++ ['\n']) = before ++ [last] ∧
      (∀ cluster ∈ before, '\n' ∉ cluster) ∧ (last = ['\n'] ∨ last = ['\r', '\n']) := by
  induction cs generalizing b current with
  | nil =>
    have hrole' : role '\n' = .lineFeed := rfl
    by_cases hreturn : b.role = .carriageReturn
    · have hjoins : joins b (role '\n') = true := by
        rw [hrole', joins_lineFeed, hreturn]
        rfl
      exact ⟨[], ['\r', '\n'], by simp [clustersAfter, hjoins, hrole hreturn], by simp, .inr rfl⟩
    · have hjoins : joins b (role '\n') = false := by
        rw [hrole', joins_lineFeed]
        exact decide_eq_false hreturn
      exact ⟨[current], ['\n'], by simp [clustersAfter, hjoins], by simpa using hcurrent, .inl rfl⟩
  | cons c cs ih =>
    obtain ⟨hc, hcs⟩ := not_or.mp (List.mem_cons.not.mp hcs)
    cases hjoins : joins b (role c) with
    | true =>
      -- what joins is no carriage return, so nothing is claimed of the longer cluster
      have hlong : (b.push (role c)).role = .carriageReturn → current ++ [c] = ['\r'] := by
        intro hpush
        rw [show role c = .carriageReturn from hpush, joins_carriageReturn] at hjoins
        cases hjoins
      obtain ⟨before, last, heq, hrest⟩ := ih hcs (b := b.push (role c))
        (by simp [hcurrent, hc]) hlong
      exact ⟨before, last, by simpa [clustersAfter, hjoins] using heq, hrest⟩
    | false =>
      have hshort : (b.push (role c)).role = .carriageReturn → [c] = ['\r'] := by
        intro hpush
        rw [eq_of_role_carriageReturn hpush]
      obtain ⟨before, last, heq, hbefore, hlast⟩ := ih hcs (b := b.push (role c))
        (by simp [hc]) hshort
      refine ⟨current :: before, last, by simpa [clustersAfter, hjoins] using heq, ?_, hlast⟩
      exact List.forall_mem_cons.mpr ⟨hcurrent, hbefore⟩

/-- **Only the last cluster of a line has the line feed** that ends it. -/
theorem clusters_line {cs : List Char} (hcs : '\n' ∉ cs) :
    ∃ before last, clusters (cs ++ ['\n']) = before ++ [last] ∧
      (∀ cluster ∈ before, '\n' ∉ cluster) ∧ (last = ['\n'] ∨ last = ['\r', '\n']) := by
  cases cs with
  | nil => exact ⟨[], ['\n'], rfl, by simp, .inl rfl⟩
  | cons c cs =>
    obtain ⟨hc, hcs⟩ := not_or.mp (List.mem_cons.not.mp hcs)
    refine clustersAfter_line hcs (by simpa using hc) ?_
    intro hrole
    rw [eq_of_role_carriageReturn hrole]

/-! ### Behind a line feed -/

/-- A line feed ends every pictograph sequence and every pair of regional indicators. -/
theorem push_lineFeed (b : Before) : b.push .lineFeed = ⟨.lineFeed, .none, false⟩ := by
  obtain ⟨before, picture, odd⟩ := b
  cases picture <;> rfl

/-- Nothing joins a line feed, and the first character behind it finds what the first
character of a text does. -/
theorem clustersAfter_lineFeed (current ds : List Char) :
    clustersAfter ⟨.lineFeed, .none, false⟩ current ds = current :: clusters ds := by
  cases ds with
  | nil => rfl
  | cons d ds =>
    have hjoins : joins ⟨.lineFeed, .none, false⟩ (role d) = false := rfl
    have hpush : (⟨.lineFeed, .none, false⟩ : Before).push (role d) = .ofFirst (role d) := by
      cases role d <;> rfl
    rw [clustersAfter, hjoins, hpush]
    rfl

theorem clustersAfter_append_line (b : Before) (current cs ds : List Char) :
    clustersAfter b current (cs ++ '\n' :: ds) =
      clustersAfter b current (cs ++ ['\n']) ++ clusters ds := by
  induction cs generalizing b current with
  | nil =>
    have hrole : role '\n' = .lineFeed := rfl
    simp only [List.nil_append, clustersAfter, hrole, push_lineFeed, clustersAfter_lineFeed]
    split <;> rfl
  | cons c cs ih =>
    simp only [List.cons_append, clustersAfter, ih]
    split <;> rfl

/-- **Behind a line feed clusters are formed afresh.** -/
theorem clusters_append_line (cs ds : List Char) :
    clusters (cs ++ '\n' :: ds) = clusters (cs ++ ['\n']) ++ clusters ds := by
  cases cs with
  | nil => exact clustersAfter_lineFeed ['\n'] ds
  | cons c cs => exact clustersAfter_append_line _ [c] cs ds

/-! ### Clusters of one character -/

/-- Printable ASCII has no role of its own. -/
theorem role_eq_other {c : Char} (hlo : 0x20 ≤ c.toNat) (hhi : c.toNat < 0x7F) :
    role c = .other := by
  have hreturn : c ≠ '\r' := by
    rintro rfl
    exact absurd hlo (by decide)
  have hfeed : c ≠ '\n' := by
    rintro rfl
    exact absurd hlo (by decide)
  rw [role, if_neg hreturn, if_neg hfeed, if_pos hhi, if_neg (by omega)]

/-- The roles that share no cluster with each other. -/
def IsSingle (r : Role) : Prop :=
  r = .carriageReturn ∨ r = .control ∨ r = .other

theorem joins_single {b : Before} {r : Role} (hb : IsSingle b.role) (hr : IsSingle r) :
    joins b r = false := by
  obtain ⟨before, picture, odd⟩ := b
  obtain rfl | rfl | rfl := hr
  · exact joins_carriageReturn _
  · cases before <;> rfl
  · obtain rfl | rfl | rfl := hb <;> rfl

theorem clustersAfter_single {b : Before} (hb : IsSingle b.role) {cs : List Char}
    (hcs : ∀ c ∈ cs, IsSingle (role c)) (current : List Char) :
    clustersAfter b current cs = current :: cs.map fun c => [c] := by
  induction cs generalizing b current with
  | nil => rfl
  | cons c cs ih =>
    obtain ⟨hc, hrest⟩ := List.forall_mem_cons.mp hcs
    have hpush : IsSingle (b.push (role c)).role := hc
    simp [clustersAfter, joins_single hb hc, ih hpush hrest]

/-- **Characters that share no cluster with each other are clusters by themselves.** -/
theorem clusters_single {cs : List Char} (hcs : ∀ c ∈ cs, IsSingle (role c)) :
    clusters cs = cs.map fun c => [c] := by
  cases cs with
  | nil => rfl
  | cons c cs =>
    obtain ⟨hc, hrest⟩ := List.forall_mem_cons.mp hcs
    exact clustersAfter_single hc hrest [c]

/-- ASCII without the line feed. -/
theorem isSingle_role_ascii {c : Char} (hascii : c.toNat < 0x80) (hfeed : c ≠ '\n') :
    IsSingle (role c) := by
  by_cases hreturn : c = '\r'
  · rw [hreturn]
    exact .inl rfl
  by_cases hdelete : c.toNat = 0x7F
  · obtain rfl : c = '\x7F' := Char.toNat_inj.mp hdelete
    exact .inr (.inl rfl)
  have hlt : c.toNat < 0x7F := by omega
  rw [role, if_neg hreturn, if_neg hfeed, if_pos hlt]
  split
  · exact .inr (.inl rfl)
  · exact .inr (.inr rfl)

/-! ### No more clusters than characters -/

theorem startsAfter_le_length (b : Before) (cs : List Char) : startsAfter b cs ≤ cs.length := by
  induction cs generalizing b with
  | nil => exact Nat.le_refl 0
  | cons c cs ih =>
    have hrest := ih (b.push (role c))
    rw [startsAfter, List.length_cons]
    split <;> omega

theorem count_le_length (cs : List Char) : count cs ≤ cs.length := by
  cases cs with
  | nil => exact Nat.le_refl 0
  | cons c cs =>
    have hrest := startsAfter_le_length (.ofFirst (role c)) cs
    rw [count, List.length_cons]
    omega

end Interpolation.Grapheme
