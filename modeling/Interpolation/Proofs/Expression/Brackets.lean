/-
Names with dots and names with keys in brackets.

* `segments_of_isName` — the segments of a name are its root and keys;
* `interpretName_matches` — what a name refers to is found by looking up its keys one by one;
* `value_bracketed` — an expression that is a name comes to the same with brackets for dots.

Design notes: both expressions begin with the look-up of a variable.  With dots the keys are
looked up in the context, and the result is handed to the template.  With brackets the variable
is handed over first and the keys are looked up in the template.  Both are measured against the
second way, written as a computation without positions and warnings (`lookupKeys`); an
evaluation follows it when it gives the same value or fails with something to report.
-/
import Interpolation.Proofs.Evaluation.Access
import Interpolation.Proofs.Evaluation.Names
import Interpolation.Proofs.Expression.Segments
import Interpolation.Proofs.Expression.Value
import Interpolation.Proofs.Template.Brackets

namespace Interpolation

/-! ### Evaluations that follow a computation -/

namespace Evaluation

open Config (Context)
open Expression (Origin)
open Template (Node)

/-- An evaluation gives the value of a computation, or they both fail.  What the evaluation
fails with is reported as an error. -/
inductive Eval.Follows {α : Type} : Eval α → Except Failure α → Prop
  | give (a : α) : Follows (pure a) (.ok a)
  | fail {e : Failure} (hreported : e.IsReported) (hfault : ∀ f, e ≠ .fault f) (e' : Failure) :
    Follows (Eval.fail e) (.error e')

theorem Eval.Follows.bind_ofExcept {α β : Type} {m : Eval α} {r : Except Failure α}
    {g : α → Except Failure β} (h : m.Follows r) (hg : ∀ a, Fails Failure.IsError (g a)) :
    Eval.Follows (m >>= fun a => Eval.ofExcept (g a)) (r >>= g) := by
  cases h with
  | fail hreported hfault e' => exact .fail hreported hfault e'
  | give a =>
    show Eval.Follows (pure a >>= fun a => Eval.ofExcept (g a)) (g a)
    rw [pure_bind]
    cases hr : g a with
    | ok b => exact .give b
    | error e =>
      have herror := hg a e hr
      refine .fail herror.isOwn.isSingle.isReported (fun f hf => ?_) e
      subst hf
      exact herror

/-- The look-up of a name follows what its interpretation matches. -/
theorem lookupOwned_follows {c : Context} {o : Origin} {p : Template.Pos} {name : String}
    {r : Except Failure Value} (h : Matches ((o.lookup p name).value (some c)) r) :
    (lookupOwned (.ofContext (some c)) o p name).Follows r := by
  unfold lookupOwned contextOf
  simp only [Scope.ofContext, Eval.ofExcept_ok, pure_bind]
  generalize (o.lookup p name).value (some c) = found at h ⊢
  cases h with
  | value v =>
    simp only [Config.Result.ofValue, Config.hasErrors_nil, Eval.warn_nil]
    exact .give v.toTemplate
  | report summary detail subject e =>
    have hreported : (Failure.diagnosed [.error summary detail subject]).IsReported := rfl
    refine .fail hreported (fun f hf => ?_) (.error e)
    cases hf

theorem applyKeys_fails (v : Value) (keys : List String) :
    Fails Failure.IsError (applyKeys v keys) := by
  induction keys generalizing v with
  | nil => exact .ok v
  | cons key rest ih =>
    rw [applyKeys, List.foldlM_cons]
    exact .bind (applyIndex_text_fails v key) ih

/-- A template with a single part has the value of the part. -/
theorem eval_output_single (scope : Scope) (pos : Template.Pos) (n : Node Origin) :
    eval scope (.output pos [n]) = eval scope n := by
  rw [eval, evalAll_cons, evalAll_nil]
  simp [joinParts_single]

/-- A chain of look-ups evaluates its target and then looks up the keys. -/
theorem eval_indexes {scope : Scope} {target n : Node Origin} {keys : List (List Char)}
    (h : target.Indexes keys n) :
    eval scope n = eval scope target >>= fun v =>
      Eval.ofExcept (applyKeys v (keys.map String.ofList)) := by
  induction h with
  | nil n => exact (bind_pure (eval scope n)).symm
  | @cons pos place target n key keys _ ih =>
    rw [ih, eval, eval, bind_assoc]
    refine congrArg _ (funext fun v => ?_)
    rw [pure_bind, List.map_cons, applyKeys, List.foldlM_cons]
    cases applyIndex v (.text (String.ofList key)) <;> rfl

end Evaluation

namespace Expression

open Config (Context Range)
open Digits (IsNegativeZero IsTooLong)
open Evaluation
open Template (IsKeyword IsName IsRoot IsSegment Node bracketed dotted interpolation)

/-- An expression comes to a value that nothing is reported about, or else to an error. -/
def EndsIn (e : Expression) (context : Option Context) : Option Value → Prop
  | some v => e.value context = .ok ⟨v, []⟩
  | none => ∃ r, e.value context = .ok r ∧ Config.hasErrors r.diagnostics = true

/-- An expression ends as a computation that its tree follows. -/
theorem endsIn_of_follows {e : Expression} {context : Option Context}
    {r : Except Failure Value} (h : (eval (.ofContext context) e.root).Follows r) :
    e.EndsIn context (r.toOption.map Value.toConfig) := by
  generalize hm : eval (.ofContext context) e.root = m at h
  cases h with
  | give v => exact value_of_eval (by rw [hm]; rfl)
  | @fail failure hreported hfault e' =>
    have heval : eval (.ofContext context) e.root [] = .error failure := by
      rw [hm]
      rfl
    obtain ⟨problem, hproblem⟩ : ∃ problem, Problem.ofFailure failure = .ok problem := by
      cases failure with
      | error e => cases e <;> exact ⟨_, rfl⟩
      | diagnosed ds => exact ⟨_, rfl⟩
      | fault f => exact absurd rfl (hfault f)
    have herrors := hasErrors_of_ofFailure hreported hproblem e.origin.source e.origin.start
    refine ⟨⟨.dynamic, problem.diagnostics e.origin.source e.origin.start⟩, ?_, herrors⟩
    rw [value, evaluate_eq_eval, heval]
    exact bind_eq_ok.mpr ⟨problem, hproblem, rfl⟩

/-! ### The segments of a name -/

/-- Segments are joined by dots as they are with a dot before each but the first. -/
theorem intercalate_eq_dotted (first : List Char) (keys : List (List Char)) :
    ['.'].intercalate (first :: keys) = first ++ dotted keys := by
  induction keys generalizing first with
  | nil => simp [dotted]
  | cons key rest ih =>
    rw [List.intercalate_cons_cons, ih]
    simp [dotted]

theorem splitOn_append_dotted {first : List Char} {keys : List (List Char)} (hfirst : '.' ∉ first)
    (hkeys : ∀ key ∈ keys, '.' ∉ key) : (first ++ dotted keys).splitOn '.' = first :: keys := by
  have hsplit := List.splitOn_intercalate '.' (List.forall_mem_cons.mpr ⟨hfirst, hkeys⟩)
    (List.cons_ne_nil _ _)
  rwa [intercalate_eq_dotted] at hsplit

theorem dot_notMem_of_isRoot {root : List Char} (h : IsRoot root) : '.' ∉ root := by
  obtain ⟨c, first, hc, hfirst, rfl⟩ := h
  intro hdot
  rcases List.mem_cons.mp hdot with rfl | hdot
  · cases hc
  · exact dot_notMem_of_continuesName hfirst hdot

/-- The segments of a name are its root and keys. -/
theorem segments_of_isName {name first : List Char} {keys : List (List Char)}
    (hname : IsName name) (h : name.splitOn '.' = first :: keys) :
    IsRoot first ∧ (∀ key ∈ keys, IsSegment key) ∧ name = first ++ dotted keys := by
  obtain ⟨c, rest, segments, hc, hrest, hsegments, rfl⟩ := hname
  have hroot : IsRoot (c :: rest) := ⟨c, rest, hc, hrest, rfl⟩
  rw [splitOn_append_dotted (dot_notMem_of_isRoot hroot)
    fun s hs => (hsegments s hs).not_mem (by decide) rfl] at h
  cases h
  exact ⟨hroot, hsegments, rfl⟩

variable {name first : List Char} {keys : List (List Char)}

theorem nil_notMem_segments (hroot : IsRoot first) (hkeys : ∀ key ∈ keys, IsSegment key) :
    [] ∉ first :: keys := by
  intro hmem
  rcases List.mem_cons.mp hmem with rfl | hmem
  · obtain ⟨c, rest, -, -, hnil⟩ := hroot
    cases hnil
  · exact (hkeys [] hmem).ne_nil rfl

/-- The path of a name leads from its root along its keys. -/
theorem exists_path (h : name.splitOn '.' = first :: keys) (hne : [] ∉ first :: keys)
    (range : Range) : ∃ root rest,
      traversalOf (String.ofList name) range = .ok ⟨.root (String.ofList first) root, rest⟩ ∧
        Along (keys.map String.ofList) rest := by
  have hlist : (String.ofList name).toList.splitOn '.' = first :: keys := by
    rw [String.toList_ofList, h]
  rcases traversalOf_outcome (String.ofList name) range with ⟨-, t, ht, hlength, hsteps⟩ |
    ⟨hempty, -⟩ | ⟨hmem, -⟩
  · rw [hlist] at hlength hsteps
    obtain ⟨step, rest⟩ := t
    obtain ⟨root, hroot, -⟩ := hsteps 0 first rfl
    cases hroot
    refine ⟨root, rest, ht, List.forall₂_map_left_iff.mpr (List.forall₂_iff_get.mpr ⟨?_, ?_⟩)⟩
    · exact (Nat.succ.inj hlength).symm
    · intro i hi hi'
      obtain ⟨range, hstep, -⟩ := hsteps (i + 1) keys[i] (List.getElem?_eq_getElem hi)
      refine ⟨range, ?_⟩
      exact Option.some.inj ((List.getElem?_eq_getElem hi').symm.trans hstep)
  · rw [hempty] at hlist
    cases hlist
    exact absurd List.mem_cons_self hne
  · rw [hlist] at hmem
    exact absurd hmem hne

/-! ### What names and keys lead to -/

/-- What a variable holds under keys, as templates see it. -/
def lookupKeys (c : Context) (root : String) (keys : List String) : Except Failure Value :=
  match c.lookupVariable root with
  | some w => applyKeys w.toTemplate keys
  | none => .error (.error (.unknownVariable root))

theorem lookupKeys_bind (c : Context) (root : String) (keys : List String) :
    (lookupKeys c root [] >>= fun v => applyKeys v keys) = lookupKeys c root keys := by
  unfold lookupKeys
  cases c.lookupVariable root <;> rfl

/-- **What a name refers to is found by looking up its keys one by one.** -/
theorem interpretName_matches {c : Context} (h : name.splitOn '.' = first :: keys)
    (hne : [] ∉ first :: keys)
    (hkeys : ∀ key ∈ keys.map String.ofList, ¬IsTooLong key ∧ ¬IsNegativeZero key)
    (hc : ∀ x w, c.lookupVariable x = some w → ¬Value.unknown.OccursIn w) (range : Range) :
    Matches ((interpretName (String.ofList name) range).value (some c))
      (lookupKeys c (String.ofList first) (keys.map String.ofList)) := by
  obtain ⟨root, rest, hpath, halong⟩ := exists_path h hne range
  have hvalue : (interpretName (String.ofList name) range).value (some c) =
      (Config.Traversal.value ⟨.root (String.ofList first) root, rest⟩ (some c)).mapError
        LookupFailure.fault := by
    rw [interpretName, Reference.ofName, hpath]
    rfl
  rw [hvalue, Config.Traversal.value, lookupKeys]
  dsimp only
  cases hw : c.lookupVariable (String.ofList first) with
  | none => exact .report _ _ _ _
  | some w => exact (apply_matches halong hkeys (hc _ w hw)).mapError _

/-! ### Expressions -/

theorem adopt_indexes (o : Origin) {target n : Node Origin} (h : target.Indexes keys n) :
    (target.adopt o).Indexes keys (n.adopt o) := by
  induction h with
  | nil n => exact .nil _
  | cons _ ih =>
    rw [Node.adopt_index, Node.adopt_literal] at ih
    exact .cons ih

theorem parse_of_ok {text file : String} {start : Config.Pos}
    {interpret : String → Range → Lookup} {n : Node Origin}
    (h : Template.parse text (toTemplatePos file start) = .ok n) :
    parse text file start interpret =
      .ok (.ok (ofNode n ⟨Utf8.encode text.toList, start, interpret⟩)) := by
  unfold parse
  dsimp only
  rw [h]

theorem not_isKeyword_dotted (h : ¬IsKeyword first) (keys : List (List Char)) :
    ¬IsKeyword (first ++ dotted keys) := by
  cases keys with
  | nil => simpa [dotted] using h
  | cons key rest =>
    have hdot : '.' ∈ first ++ dotted (key :: rest) := by simp [dotted]
    rintro (hword | hword)
    · rw [hword] at hdot
      simp at hdot
    · rw [hword] at hdot
      simp at hdot

section

variable {c : Context} (hroot : IsRoot first) (hall : ∀ key ∈ keys, IsSegment key)
  (hword : ¬IsKeyword first)
  (hc : ∀ x w, c.lookupVariable x = some w → ¬Value.unknown.OccursIn w)

include hroot hall hword hc

theorem exists_dotted_endsIn
    (hkeys : ∀ key ∈ keys.map String.ofList, ¬IsTooLong key ∧ ¬IsNegativeZero key)
    (file : String) (start : Config.Pos) : ∃ e : Expression,
    parse (String.ofList (interpolation (first ++ dotted keys))) file start interpretName =
      .ok (.ok e) ∧
    e.EndsIn (some c)
      ((lookupKeys c (String.ofList first) (keys.map String.ofList)).toOption.map
        Value.toConfig) := by
  have hname : IsName (first ++ dotted keys) := by
    obtain ⟨d, rest, hd, hrest, rfl⟩ := hroot
    exact ⟨d, rest, keys, hd, hrest, hall, rfl⟩
  have hsegments : (first ++ dotted keys).splitOn '.' = first :: keys :=
    splitOn_append_dotted (dot_notMem_of_isRoot hroot)
      fun key hkey => (hall key hkey).not_mem (by decide) rfl
  obtain ⟨p, hparse⟩ := @Template.parse_name Origin _ hname (not_isKeyword_dotted hword keys)
    (toTemplatePos file start)
  refine ⟨_, parse_of_ok hparse, endsIn_of_follows ?_⟩
  simp only [ofNode, Node.adopt_output, List.map_singleton, Node.adopt_access, Option.none_or]
  rw [eval_output_single, eval]
  refine lookupOwned_follows ?_
  exact interpretName_matches hsegments (nil_notMem_segments hroot hall) hkeys hc _

theorem exists_bracketed_endsIn (file : String) (start : Config.Pos) : ∃ e : Expression,
    parse (String.ofList (interpolation (bracketed first keys))) file start interpretName =
      .ok (.ok e) ∧
    e.EndsIn (some c)
      ((lookupKeys c (String.ofList first) (keys.map String.ofList)).toOption.map
        Value.toConfig) := by
  -- the variable is a name without keys, and it is all that is looked up in the context
  have hsegments : first.splitOn '.' = [first] := by
    have hsplit := splitOn_append_dotted (dot_notMem_of_isRoot hroot)
      (List.forall_mem_nil ('.' ∉ ·))
    rwa [dotted, List.flatMap_nil, List.append_nil] at hsplit
  have hnone : ∀ key ∈ ([] : List (List Char)), IsSegment key := List.forall_mem_nil _
  obtain ⟨p, n, hparse, hindexes⟩ := @Template.parse_bracketed Origin _ hroot hword _ hall
    (toTemplatePos file start)
  refine ⟨_, parse_of_ok hparse, endsIn_of_follows ?_⟩
  simp only [ofNode, Node.adopt_output, List.map_singleton]
  rw [eval_output_single, eval_indexes (adopt_indexes _ hindexes), ← lookupKeys_bind,
    Node.adopt_access, Option.none_or, eval]
  refine Eval.Follows.bind_ofExcept (lookupOwned_follows ?_) fun v => applyKeys_fails v _
  exact interpretName_matches hsegments (nil_notMem_segments hroot hnone)
    (List.forall_mem_nil _) hc _

end

/-- **An expression that is a name comes to the same with brackets for dots**, as long as no
key has too many digits or is a minus sign before zeros.  Where the name leads to a value, both
have the value, and else both report an error. -/
theorem value_bracketed (hname : IsName name) (hsegments : name.splitOn '.' = first :: keys)
    (hword : ¬IsKeyword first)
    (hkeys : ∀ key ∈ keys, key.length ≤ Digits.digitLimit ∧ ¬IsNegativeZero (String.ofList key))
    {c : Context} (hc : ∀ x w, c.lookupVariable x = some w → ¬Value.unknown.OccursIn w)
    (file file' : String) (start start' : Config.Pos) :
    ∃ e e' : Expression,
      parse (String.ofList (interpolation name)) file start interpretName = .ok (.ok e) ∧
      parse (String.ofList (interpolation (bracketed first keys))) file' start' interpretName =
        .ok (.ok e') ∧
      ∃ result, e.EndsIn (some c) result ∧ e'.EndsIn (some c) result := by
  obtain ⟨hroot, hall, rfl⟩ := segments_of_isName hname hsegments
  have hreadable : ∀ key ∈ keys.map String.ofList, ¬IsTooLong key ∧ ¬IsNegativeZero key := by
    intro key hkey
    obtain ⟨k, hk, rfl⟩ := List.mem_map.mp hkey
    obtain ⟨hlength, hzero⟩ := hkeys k hk
    refine ⟨fun hlong => ?_, hzero⟩
    have hlimit := hlong.2
    rw [String.toList_ofList] at hlimit
    omega
  obtain ⟨e, hdotted, hends⟩ := exists_dotted_endsIn hroot hall hword hc hreadable file start
  obtain ⟨e', hbracketed, hends'⟩ :=
    exists_bracketed_endsIn hroot hall hword hc file' start'
  exact ⟨e, e', hdotted, hbracketed, _, hends, hends'⟩

/-- The expression `${a.01.b}`. -/
private def padded : Expression :=
  ofNode (.output ⟨"", 1, 1⟩ [.access none ⟨"", 1, 3⟩ "a.01.b"])
    ⟨Utf8.encode "${a.01.b}".toList, .initial, interpretName⟩

/-- A context in which `a` is a tuple of two. -/
private def twoItems : Context :=
  ⟨⟨[("a", .tuple [.null, .map [("b", .text "found")]])], []⟩, []⟩

private theorem not_unknown_in_twoItems {x : String} {w : Value}
    (h : twoItems.lookupVariable x = some w) : ¬Value.unknown.OccursIn w := by
  by_cases hx : x = "a"
  · subst hx
    cases h
    exact (Value.isSettled_iff.mp rfl).1
  · simp [twoItems, Context.lookupVariable, Context.levels, List.lookup_cons,
      beq_false_of_ne hx] at h

/-- A key with a leading zero leads to the second item with brackets, too. -/
theorem value_bracketed_padded : ∃ e : Expression,
    parse "$\x7ba[\"01\"][\"b\"]\x7d" "" .initial interpretName = .ok (.ok e) ∧
    e.value (some twoItems) = .ok ⟨.text "found", []⟩ := by
  have hname : IsName "a.01.b".toList :=
    ⟨'a', [], [['0', '1'], ['b']], rfl, by simp, by simp [IsSegment]; decide, rfl⟩
  have hsegments : "a.01.b".toList.splitOn '.' = ['a'] :: [['0', '1'], ['b']] := by decide
  have hword : ¬IsKeyword ['a'] := by simp [IsKeyword]
  have hkeys : ∀ key ∈ [['0', '1'], ['b']], key.length ≤ Digits.digitLimit ∧
      ¬IsNegativeZero (String.ofList key) := by
    rw [Digits.digitLimit]
    simp [IsNegativeZero]
  have hparse : parse "${a.01.b}" "" .initial interpretName = .ok (.ok padded) := by
    with_unfolding_all rfl
  have hfound : Config.found ((padded.origin.lookup ⟨"", 1, 3⟩ "a.01.b").value (some twoItems)) =
      some (.text "found") := by
    with_unfolding_all rfl
  have hterse : Config.Terse ((padded.origin.lookup ⟨"", 1, 3⟩ "a.01.b").value (some twoItems)) :=
    interpretName_terse _ _ _
  have heval : eval (.ofContext (some twoItems)) padded.root [] = .ok (.text "found", []) := by
    show eval _ (.output _ [.access (some padded.origin) _ _]) [] = _
    rw [eval_output_single, eval, lookupOwned_of_found hterse hfound]
    rfl
  have hvalue : padded.value (some twoItems) = .ok ⟨.text "found", []⟩ := value_of_eval heval
  obtain ⟨e, e', he, he', result, hends, hends'⟩ :=
    value_bracketed hname hsegments hword hkeys (fun x w => not_unknown_in_twoItems) "" "" .initial
      .initial
  cases he.symm.trans hparse
  refine ⟨e', he', ?_⟩
  -- what the name with dots comes to is known, so the other one can come to nothing else
  cases result with
  | some v =>
    cases hends.symm.trans hvalue
    exact hends'
  | none =>
    obtain ⟨r, hr, herrors⟩ := hends
    cases hr.symm.trans hvalue
    cases herrors

end Expression

end Interpolation
