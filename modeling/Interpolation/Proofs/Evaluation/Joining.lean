/-
The text of a template, part by part.

* `joinParts_toText_iff` — parts are joined to a value with a text exactly when each of them
  has a text, and then the text is theirs in a row;
* `eval_moved` — where a tree is written makes no difference to its value;
* `evaluate_append` — the text of two templates in a row is the text of the first and then
  that of the second.

Design notes: a template of one part has the value of that part, whatever it is, and one of
several parts has a text.  The difference is gone once both are written as text, so trees are
compared by their texts (`IsWritten`) and not by their values.
-/
import Interpolation.Proofs.Evaluation.Machine
import Interpolation.Proofs.Evaluation.Operation
import Interpolation.Proofs.Expression.Warnings
import Interpolation.Proofs.Template.Joining

namespace Interpolation.Evaluation

open Config (Diagnostics)
open Expression (Origin accesses)
open Template (Node Part Pos Row joinRows meaning parse render)

/-! ### Joining -/

/-- Some parts are not asked for their text, but these have none. -/
theorem partTexts_cons_iff {part : Nat} {v : Value} {rest : List Value} {texts : List String} :
    partTexts part (v :: rest) = .ok texts ↔
      ∃ s others, v.toText = .ok s ∧ partTexts (part + 1) rest = .ok others ∧
        texts = s :: others := by
  rw [partTexts]
  constructor
  · intro h
    split at h
    iterate 3 cases h
    obtain ⟨s, hs, h⟩ := bind_eq_ok.mp h
    obtain ⟨others, hothers, h⟩ := bind_eq_ok.mp h
    cases h
    exact ⟨s, others, hs, hothers, rfl⟩
  · rintro ⟨s, others, hs, hothers, rfl⟩
    have hjoin : (do
        let s ← v.toText
        let texts ← partTexts (part + 1) rest
        return s :: texts : Except Failure (List String)) = .ok (s :: others) :=
      bind_eq_ok.mpr ⟨s, hs, bind_eq_ok.mpr ⟨others, hothers, rfl⟩⟩
    cases v with
    | null | list | tuple | map | dynamic => cases hs
    | _ => exact hjoin

theorem partTexts_iff (part : Nat) {values : List Value} {texts : List String} :
    partTexts part values = .ok texts ↔
      List.Forall₂ (fun v s => v.toText = .ok s) values texts := by
  induction values generalizing part texts with
  | nil => simp [partTexts, eq_comm]
  | cons v rest ih =>
    rw [partTexts_cons_iff, List.forall₂_cons_left_iff]
    simp only [ih]

/-- **Parts are joined to a value with a text when each has a text.** -/
theorem joinParts_toText_iff {values : List Value} {s : String} :
    (∃ u, joinParts values = .ok u ∧ u.toText = .ok s) ↔
      ∃ texts, List.Forall₂ (fun v t => v.toText = .ok t) values texts ∧
        String.join texts = s := by
  by_cases hone : ∃ v, values = [v]
  · obtain ⟨v, rfl⟩ := hone
    constructor
    · rintro ⟨u, hu, hs⟩
      cases hu
      exact ⟨[s], .cons hs .nil, by simp⟩
    · rintro ⟨texts, htexts, rfl⟩
      obtain ⟨t, rest, ht, hrest, rfl⟩ := List.forall₂_cons_left_iff.mp htexts
      obtain rfl := List.forall₂_nil_left_iff.mp hrest
      exact ⟨v, rfl, by simpa using ht⟩
  · have hjoin : joinParts values = if values.any Value.isUnknown then .ok .unknown
        else (partTexts 1 values).bind fun texts => .ok (.text (String.join texts)) := by
      unfold joinParts
      split
      · next v => exact absurd ⟨v, rfl⟩ hone
      · rfl
    simp only [hjoin, ← partTexts_iff 1]
    cases hany : values.any Value.isUnknown with
    | true =>
      constructor
      · rintro ⟨u, hu, hs⟩
        cases hu
        cases hs
      · rintro ⟨texts, htexts, -⟩
        obtain ⟨v, hv, hunknown⟩ := List.any_eq_true.mp hany
        rw [Value.isUnknown_iff.mp hunknown] at hv
        exact absurd (isAtom_of_partTexts htexts _ hv) (by simp [Value.isAtom])
    | false =>
      constructor
      · rintro ⟨u, hu, hs⟩
        obtain ⟨texts, htexts, hu⟩ := bind_eq_ok.mp hu
        cases hu
        exact ⟨texts, htexts, Except.ok.inj hs⟩
      · rintro ⟨texts, htexts, rfl⟩
        exact ⟨_, bind_eq_ok.mpr ⟨texts, htexts, rfl⟩, rfl⟩

/-! ### Trees with a text -/

/-- A tree comes to a value with the text. -/
def IsWritten (scope : Scope) (n : Node Origin) (s : String) : Prop :=
  ∃ v visits, Evaluates scope n v visits ∧ v.toText = .ok s

variable {scope : Scope}

theorem isWritten_iff_evaluate {n : Node Origin} {s : String} :
    IsWritten scope n s ↔ ∃ v ws, evaluate scope n = .ok (v, ws) ∧ v.toText = .ok s := by
  simp only [evaluate_eq_eval, eval_gives scope n _ _ _]
  constructor
  · rintro ⟨v, visits, hv, hs⟩
    exact ⟨v, _, ⟨visits, hv, rfl⟩, hs⟩
  · rintro ⟨v, ws, ⟨visits, hv, -⟩, hs⟩
    exact ⟨v, visits, hv, hs⟩

/-- A tree without owners asks for nothing. -/
theorem accesses_eq_nil_of_raw {n : Node Origin} (h : n.Raw) : accesses n = [] := by
  refine List.filterMap_eq_nil_iff.mpr fun m hm => ?_
  have hraw := h m hm
  cases m with
  | access owner p name =>
    cases owner with
    | none => rfl
    | some o => cases hraw
  | _ => rfl

/-- A tree without owners gathers no warnings. -/
theorem warnings_eq_nil_of_raw {n : Node Origin} (h : n.Raw) {v : Value} {ws : Diagnostics}
    (hv : evaluate scope n = .ok (v, ws)) : ws = [] := by
  rw [evaluate_eq_eval, eval_gives scope n _ _ _] at hv
  obtain ⟨visits, hvisits, rfl⟩ := hv
  have hnone := hvisits.sublist_accesses
  rw [accesses_eq_nil_of_raw h, List.sublist_nil, List.map_eq_nil_iff] at hnone
  rw [hnone, warningsOf_nil, List.append_nil]

theorem evaluatesAll_isWritten_iff {nodes : List (Node Origin)} {texts : List String} :
    (∃ values visits, EvaluatesAll scope nodes values visits ∧
        List.Forall₂ (fun v t => v.toText = .ok t) values texts) ↔
      List.Forall₂ (IsWritten scope) nodes texts := by
  constructor
  · rintro ⟨values, visits, hvalues, htexts⟩
    induction nodes generalizing values visits texts with
    | nil =>
      cases hvalues
      cases htexts
      exact .nil
    | cons n rest ih =>
      cases hvalues with
      | cons hn hrest =>
        cases htexts with
        | cons ht hothers => exact .cons ⟨_, _, hn, ht⟩ (ih _ _ hrest hothers)
  · intro h
    induction h with
    | nil => exact ⟨[], [], .nil, .nil⟩
    | cons hn _ ih =>
      obtain ⟨v, first, hv, ht⟩ := hn
      obtain ⟨values, others, hvalues, htexts⟩ := ih
      exact ⟨_, _, .cons hv hvalues, .cons ht htexts⟩

/-- **The text of a template is the texts of its parts in a row.** -/
theorem isWritten_output_iff {p : Pos} {parts : List (Node Origin)} {s : String} :
    IsWritten scope (.output p parts) s ↔
      ∃ texts, List.Forall₂ (IsWritten scope) parts texts ∧ String.join texts = s := by
  constructor
  · rintro ⟨u, visits, h, hs⟩
    cases h with
    | @output _ _ values _ _ hparts hu =>
      obtain ⟨texts, htexts, hjoin⟩ := joinParts_toText_iff.mp ⟨u, hu, hs⟩
      exact ⟨texts, evaluatesAll_isWritten_iff.mp ⟨values, visits, hparts, htexts⟩, hjoin⟩
  · rintro ⟨texts, hparts, hjoin⟩
    obtain ⟨values, visits, hvalues, htexts⟩ := evaluatesAll_isWritten_iff.mpr hparts
    obtain ⟨u, hu, hs⟩ := joinParts_toText_iff.mpr ⟨texts, htexts, hjoin⟩
    exact ⟨u, visits, .output hvalues hu, hs⟩

theorem isWritten_literal_iff {p : Pos} {t s : String} :
    IsWritten scope (.literal p (.text t)) s ↔ t = s := by
  constructor
  · rintro ⟨v, visits, h, hs⟩
    cases h
    exact Except.ok.inj hs
  · rintro rfl
    exact ⟨_, _, .literal, rfl⟩

/-! ### Trees apart from positions -/

theorem evalAll_moved {f : Pos → Pos} {nodes : List (Node Origin)}
    (h : ∀ n ∈ nodes, eval scope (n.moved f) = eval scope n) :
    evalAll scope (nodes.map (Node.moved f)) = evalAll scope nodes := by
  induction nodes with
  | nil => rfl
  | cons n rest ih =>
    obtain ⟨hn, hrest⟩ := List.forall_mem_cons.mp h
    rw [List.map_cons, evalAll_cons, evalAll_cons, hn, ih hrest]

/-- **A tree without owners has the same value wherever it is written.** -/
theorem eval_moved {f : Pos → Pos} {n : Node Origin} (h : n.Raw) :
    eval scope (n.moved f) = eval scope n := by
  induction n with
  | bare pos kids ih => cases h.isRaw
  | output pos parts ih =>
    have hparts := evalAll_moved fun k hk => ih k hk (h.kid hk)
    rw [Node.moved_output, eval, eval, hparts]
  | literal pos value => rw [Node.moved_literal, eval, eval]
  | access owner pos name =>
    cases owner with
    | some o => cases h.isRaw
    | none => rw [Node.moved_access, eval, eval]
  | call owner pos function arguments ih =>
    cases owner with
    | some o => cases h.isRaw
    | none =>
      have harguments := evalAll_moved fun k hk => ih k hk (h.kid hk)
      rw [Node.moved_call, eval, eval, harguments]
  | unary pos op operand ih =>
    have hoperand := ih (h.kid (by simp [Node.kids]))
    rw [Node.moved_unary, eval, eval, hoperand]
  | binary pos op left right ihl ihr =>
    have hleft := ihl (h.kid (by simp [Node.kids]))
    have hright := ihr (h.kid (by simp [Node.kids]))
    rw [Node.moved_binary, eval, eval, hleft, hright]
  | conditional pos condition yes no ihc ihy ihn =>
    have hcondition := ihc (h.kid (by simp [Node.kids]))
    have hyes := ihy (h.kid (by simp [Node.kids]))
    have hno := ihn (h.kid (by simp [Node.kids]))
    rw [Node.moved_conditional, eval, eval, hcondition, hyes, hno]
  | index pos target key iht ihk =>
    have htarget := iht (h.kid (by simp [Node.kids]))
    have hkey := ihk (h.kid (by simp [Node.kids]))
    rw [Node.moved_index, eval, eval, htarget, hkey]

theorem isWritten_unplaced_iff {n : Node Origin} (h : n.Raw) {s : String} :
    IsWritten scope n.unplaced s ↔ IsWritten scope n s := by
  rw [isWritten_iff_evaluate, isWritten_iff_evaluate, evaluate_eq_eval, evaluate_eq_eval,
    Node.unplaced_eq_moved, eval_moved h]

/-! ### Rows of parts -/

/-- A part comes to a value with the text, wherever it is written. -/
def PartIsWritten (scope : Scope) : Part → String → Prop
  | .text chars, s => String.ofList chars = s
  | .code source, s => ∃ m : Node Origin, meaning source = .ok m ∧ IsWritten scope m s

theorem isWritten_iff_of_means {part : Part} {n : Node Origin} (h : part.Means n) (hn : n.Raw)
    {s : String} : IsWritten scope n s ↔ PartIsWritten scope part s := by
  cases part with
  | text chars =>
    obtain ⟨p, rfl⟩ := h
    exact isWritten_literal_iff
  | code source =>
    have hmeaning : meaning source = .ok n.unplaced := h
    rw [← isWritten_unplaced_iff hn]
    constructor
    · exact fun hs => ⟨_, hmeaning, hs⟩
    · rintro ⟨m, hm, hs⟩
      cases hmeaning.symm.trans hm
      exact hs

theorem forall₂_isWritten_iff {parts : List Part} {nodes : List (Node Origin)}
    (h : List.Forall₂ Part.Means parts nodes) (hnodes : ∀ n ∈ nodes, n.Raw)
    {texts : List String} :
    List.Forall₂ (IsWritten scope) nodes texts ↔
      List.Forall₂ (PartIsWritten scope) parts texts := by
  induction h generalizing texts with
  | nil => rw [List.forall₂_nil_left_iff, List.forall₂_nil_left_iff]
  | cons hpart _ ih =>
    obtain ⟨hn, hrest⟩ := List.forall_mem_cons.mp hnodes
    rw [List.forall₂_cons_left_iff, List.forall₂_cons_left_iff]
    simp only [isWritten_iff_of_means hpart hn, ih hrest]

/-- **Rows are joined as their texts are.** -/
theorem exists_texts_joinRows {a b : List Part} {first second : List String}
    (ha : List.Forall₂ (PartIsWritten scope) a first)
    (hb : List.Forall₂ (PartIsWritten scope) b second) :
    ∃ texts, List.Forall₂ (PartIsWritten scope) (joinRows a b) texts ∧
      String.join texts = String.join first ++ String.join second := by
  fun_induction joinRows a b generalizing first with
  | case1 b =>
    cases ha
    exact ⟨second, hb, by simp⟩
  | case2 chars more later =>
    obtain ⟨s, _, rfl, hnil, rfl⟩ := List.forall₂_cons_left_iff.mp ha
    obtain rfl := List.forall₂_nil_left_iff.mp hnil
    obtain ⟨t, others, rfl, hothers, rfl⟩ := List.forall₂_cons_left_iff.mp hb
    refine ⟨_, .cons rfl hothers, ?_⟩
    simp [String.join_cons, String.append_assoc]
  | case3 b part rest _ ih =>
    obtain ⟨s, others, hs, hothers, rfl⟩ := List.forall₂_cons_left_iff.mp ha
    obtain ⟨texts, htexts, hjoin⟩ := ih hothers hb
    exact ⟨s :: texts, .cons hs htexts, by simp [String.join_cons, hjoin, String.append_assoc]⟩

/-! ### Templates in a row -/

/-- The text of a template is the texts of the parts it is written as. -/
theorem isWritten_parse_iff {parts : List Part} (h : Row Template.Closes parts) {p : Pos}
    {n : Node Origin} (hparse : parse (String.ofList (render parts)) p = .ok n) {s : String} :
    IsWritten scope n s ↔
      ∃ texts, List.Forall₂ (PartIsWritten scope) parts texts ∧ String.join texts = s := by
  obtain ⟨nodes, rfl, hmeans⟩ := Template.means_of_parse h hparse
  have hnodes : ∀ k ∈ nodes, k.Raw := fun k hk => (Template.parse_raw hparse).kid hk
  simp only [isWritten_output_iff, forall₂_isWritten_iff hmeans hnodes]

/-- **Templates concatenate.**  If two templates have a text in a scope, and the first does
not end in a dollar sign, then they can be read as one template, and its text is the text of
the first and then that of the second. -/
theorem evaluate_append {a b : String} {p q : Pos} {m n : Node Origin} (ha : parse a p = .ok m)
    (hb : parse b q = .ok n) (hend : a.toList.getLast? ≠ some '$') {x y : Value}
    {ws ws' : Diagnostics} (hx : evaluate scope m = .ok (x, ws))
    (hy : evaluate scope n = .ok (y, ws')) {s t : String} (hs : x.toText = .ok s)
    (ht : y.toText = .ok t) (start : Pos) :
    ∃ root z, parse (a ++ b) start = .ok root ∧ evaluate scope root = .ok (z, []) ∧
      z.toText = .ok (s ++ t) := by
  obtain ⟨first, hfirst, hrenderA⟩ := Template.exists_row_of_parse ha
  obtain ⟨second, hsecond, hrenderB⟩ := Template.exists_row_of_parse hb
  rw [← String.ofList_toList (s := a), ← hrenderA] at ha
  rw [← String.ofList_toList (s := b), ← hrenderB] at hb
  rw [← hrenderA] at hend
  have hrow : Row Template.Closes (joinRows first second) := hfirst.join hsecond hend
  have hwritten : String.ofList (render (joinRows first second)) = a ++ b := by
    rw [Template.render_joinRows second hend, hrenderA, hrenderB, ← String.toList_append,
      String.ofList_toList]
  obtain ⟨root, hroot⟩ : ∃ root : Node Origin,
      parse (String.ofList (render (joinRows first second))) start = .ok root := by
    refine Template.exists_parse hrow start fun source hsource => ?_
    rcases Template.code_mem_joinRows hsource with hmem | hmem
    · exact Template.exists_meaning_of_parse hfirst ha source hmem
    · exact Template.exists_meaning_of_parse hsecond hb source hmem
  -- the texts of the parts tell the text of the whole
  obtain ⟨texts, htexts, rfl⟩ :=
    (isWritten_parse_iff hfirst ha).mp (isWritten_iff_evaluate.mpr ⟨x, ws, hx, hs⟩)
  obtain ⟨texts', htexts', rfl⟩ :=
    (isWritten_parse_iff hsecond hb).mp (isWritten_iff_evaluate.mpr ⟨y, ws', hy, ht⟩)
  have hall := (isWritten_parse_iff hrow hroot).mpr (exists_texts_joinRows htexts htexts')
  obtain ⟨z, warnings, hz, htext⟩ := isWritten_iff_evaluate.mp hall
  obtain rfl := warnings_eq_nil_of_raw (Template.parse_raw hroot) hz
  exact ⟨root, z, hwritten ▸ hroot, hz, htext⟩

/-- A scope in which `ok` is true. -/
private def agreeing : Scope := ⟨[("ok", .ofValue (.bool true))], [], none⟩

/-- The tree of a text that ends in a dollar sign and a brace. -/
private def opening : Node Origin :=
  .output ⟨"", 1, 1⟩ [.literal ⟨"", 1, 1⟩ (.text "set $\x7b")]

/-- The tree of a text and of a name in an interpolation. -/
private def closing : Node Origin :=
  .output ⟨"", 1, 1⟩ [.literal ⟨"", 1, 1⟩ (.text "ok\x7d to "), .access none ⟨"", 1, 10⟩ "ok"]

/-- Where the two templates meet, their texts become one. -/
theorem evaluate_append_agreeing : ∃ root z,
    parse ("set $$\x7b" ++ "ok\x7d to $\x7bok\x7d") ⟨"", 1, 1⟩ = .ok root ∧
      evaluate agreeing root = .ok (z, []) ∧
      z.toText = .ok ("set $\x7b" ++ "ok\x7d to true") := by
  have ha : parse "set $$\x7b" ⟨"", 1, 1⟩ = .ok opening := by with_unfolding_all rfl
  have hb : parse "ok\x7d to $\x7bok\x7d" ⟨"", 1, 1⟩ = .ok closing := by with_unfolding_all rfl
  have hx : evaluate agreeing opening = .ok (.text "set $\x7b", []) := by with_unfolding_all rfl
  have hy : evaluate agreeing closing = .ok (.text "ok\x7d to true", []) := by
    with_unfolding_all rfl
  exact evaluate_append ha hb (by decide) hx hy rfl rfl ⟨"", 1, 1⟩

end Interpolation.Evaluation
