/-
How far static kinds tell what a tree evaluates to.

* `Misjudged` — the ways in which the static kind of a tree misses the kind of its value;
* `Uniform` — trees that never are: their arithmetic stays within one kind of numbers and
  their branches have one kind;
* `kindOf_admits_iff` — the static kind is right unless the tree is misjudged, and always
  right for uniform trees.

Design notes: a static kind is read off the first operand of an operator and off the first
branch of a conditional.  The value comes from both operands and from the branch that is
chosen.  So only there can the two differ: where text is used as a number, where whole and
fractional numbers meet, and where the second branch is chosen.  From there a wrong kind
goes up through templates of a single part and through first branches.
-/
import Interpolation.Evaluation.Typing
import Interpolation.Proofs.Evaluation.Operation
import Interpolation.Proofs.Evaluation.Visits
import Interpolation.Template.Node.OfText
import Mathlib.Tactic.ByContra

namespace Interpolation

/-- A static kind admits the values of that kind and those that are not known yet; a kind
that says nothing admits all. -/
def Kind.Admits (static kind : Kind) : Prop :=
  kind = static ∨ kind = .unknown ∨ static = .any ∨ static = .unknown

/-- The kind of a number. -/
def Number.kind : Number → Kind
  | .int _ => .int
  | .float _ => .float

/-- The kind of what is computed from two numbers. -/
def Number.jointKind : Number → Number → Kind
  | .int _, .int _ => .int
  | _, _ => .float

theorem Kind.Admits.self (kind : Kind) : kind.Admits kind :=
  .inl rfl

theorem Kind.Admits.any (kind : Kind) : Kind.any.Admits kind :=
  .inr (.inr (.inl rfl))

theorem Kind.Admits.of_unknown {static : Kind} : static.Admits .unknown :=
  .inr (.inl rfl)

theorem Kind.Admits.unknown (kind : Kind) : Kind.unknown.Admits kind :=
  .inr (.inr (.inr rfl))

theorem Value.kind_ofNumber (n : Number) : (Value.ofNumber n).kind = n.kind := by
  cases n <;> rfl

theorem Value.kind_of_toNumber {v : Value} {n : Number} (h : v.toNumber = .ok n) :
    v.kind = n.kind ∨ v.kind = .string := by
  cases v with
  | int | float | notANumber =>
    cases h
    exact .inl rfl
  | text => exact .inr rfl
  | _ => cases h

theorem Number.kind_lift {onInt : Int → Int → Int} {onFloat : Float → Float → Float}
    {a b n : Number} (h : lift onInt onFloat a b = .ok n) : n.kind = jointKind a b := by
  cases a with
  | int i =>
    cases b with
    | int j =>
      cases h
      rfl
    | float y =>
      obtain ⟨x, hx, h⟩ := bind_eq_ok.mp h
      cases h
      rfl
  | float x =>
    obtain ⟨x', hx, h⟩ := bind_eq_ok.mp h
    obtain ⟨y, hy, h⟩ := bind_eq_ok.mp h
    cases h
    rfl

theorem Number.kind_modulo_float {a b n : Number} (hjoint : jointKind a b = .float)
    (h : modulo a b = .ok n) : n.kind = .float := by
  unfold modulo at h
  split at h
  · cases hjoint
  · split at h
    · cases h
    · obtain ⟨x, _, h⟩ := bind_eq_ok.mp h
      obtain ⟨y, _, h⟩ := bind_eq_ok.mp h
      obtain ⟨z, _, h⟩ := bind_eq_ok.mp h
      cases h
      rfl

theorem Number.kind_modulo {a b n : Number} (h : modulo a b = .ok n) : n.kind = jointKind a b := by
  cases a with
  | int i =>
    cases b with
    | int j =>
      rw [modulo] at h
      split at h
      · cases h
      · cases h
        rfl
    | float y => exact kind_modulo_float rfl h
  | float x => exact kind_modulo_float rfl h

namespace Evaluation

open Config (Diagnostics)
open Expression (Origin)
open Template (Node BinaryOp)

/-! ### Scopes and rules -/

/-- In a scope the kinds of variables and functions tell the truth: they admit what the
variables hold and what the functions return. -/
structure Scope.IsTyped (scope : Scope) : Prop where
  variable_kind : ∀ name x, scope.findVariable name = .ok x → x.kind.Admits x.value.kind
  function_kind : ∀ name f, scope.findFunction name = .ok f →
    ∀ arguments v, f.call arguments = .ok v → f.returns.Admits v.kind

/-- How the static kind of a tree misses the kind of its value. -/
inductive Misjudged (scope : Scope) : Node Origin → Prop
  /-- The only part of a template is misjudged. -/
  | part {p : Template.Pos} {k : Node Origin} (hk : Misjudged scope k) :
      Misjudged scope (.output p [k])
  /-- A text is used as a number, or the operand is misjudged and its number not of the kind
  that was expected. -/
  | negate {p : Template.Pos} {operand : Node Origin} {static : Kind} {v : Value} {a : Number}
      {visits : List Visit} (hstatic : kindOf scope operand = .ok static)
      (hoperand : Evaluates scope operand v visits) (ha : v.toNumber = .ok a)
      (hmiss : ¬ static.Admits a.kind) : Misjudged scope (.unary p .negate operand)
  /-- The kind of the first operand is not that of what both numbers give. -/
  | arithmetic {p : Template.Pos} {op : BinaryOp} {left right : Node Origin} {static : Kind}
      {v w : Value} {a b : Number} {first second : List Visit} (hop : op.isLogical = false)
      (hstatic : kindOf scope left = .ok static) (hleft : Evaluates scope left v first)
      (hright : Evaluates scope right w second) (ha : v.toNumber = .ok a)
      (hb : w.toNumber = .ok b) (hmiss : ¬ static.Admits (Number.jointKind a b)) :
      Misjudged scope (.binary p op left right)
  /-- The first branch is chosen, and it is misjudged. -/
  | yes {p : Template.Pos} {condition yes no : Node Origin} {c : Value} {visits : List Visit}
      (hcondition : Evaluates scope condition c visits) (hchoice : chooses c = .ok (some true))
      (hyes : Misjudged scope yes) : Misjudged scope (.conditional p condition yes no)
  /-- The second branch is chosen, and its value is not of the kind of the first branch. -/
  | no {p : Template.Pos} {condition yes no : Node Origin} {static : Kind} {c v : Value}
      {first second : List Visit} (hcondition : Evaluates scope condition c first)
      (hchoice : chooses c = .ok (some false)) (hstatic : kindOf scope yes = .ok static)
      (hno : Evaluates scope no v second) (hmiss : ¬ static.Admits v.kind) :
      Misjudged scope (.conditional p condition yes no)

/-- Trees whose arithmetic stays within one kind of numbers, and whose branches have one
kind, as far as they decide the kind of the whole. -/
inductive Uniform (scope : Scope) : Node Origin → Prop
  | output {p : Template.Pos} {parts : List (Node Origin)}
      (h : ∀ k, parts = [k] → Uniform scope k) : Uniform scope (.output p parts)
  | literal {p : Template.Pos} {v : Value} : Uniform scope (.literal p v)
  | access {owner : Option Origin} {p : Template.Pos} {name : String} :
      Uniform scope (.access owner p name)
  | call {owner : Option Origin} {p : Template.Pos} {function : String}
      {arguments : List (Node Origin)} : Uniform scope (.call owner p function arguments)
  | not {p : Template.Pos} {operand : Node Origin} : Uniform scope (.unary p .not operand)
  | negate {p : Template.Pos} {operand : Node Origin} (h : Uniform scope operand)
      (hnumber : kindOf scope operand ≠ .ok .string) : Uniform scope (.unary p .negate operand)
  | logical {p : Template.Pos} {op : BinaryOp} {left right : Node Origin}
      (hop : op.isLogical = true) : Uniform scope (.binary p op left right)
  | whole {p : Template.Pos} {op : BinaryOp} {left right : Node Origin}
      (hl : Uniform scope left) (hr : Uniform scope right) (hleft : kindOf scope left = .ok .int)
      (hright : kindOf scope right = .ok .int) : Uniform scope (.binary p op left right)
  /-- A fractional number gives one with numbers of all kinds. -/
  | fractional {p : Template.Pos} {op : BinaryOp} {left right : Node Origin}
      (hl : Uniform scope left) (hleft : kindOf scope left = .ok .float) :
      Uniform scope (.binary p op left right)
  | conditional {p : Template.Pos} {condition yes no : Node Origin} (hy : Uniform scope yes)
      (hn : Uniform scope no) (hsame : kindOf scope no = kindOf scope yes) :
      Uniform scope (.conditional p condition yes no)
  | index {p : Template.Pos} {target key : Node Origin} : Uniform scope (.index p target key)

variable {scope : Scope} {n left right : Node Origin} {static : Kind} {op : BinaryOp}
variable {v w u : Value} {visits : List Visit}

/-! ### What operators give -/

/-- Whole numbers give whole numbers; all others give floating-point numbers. -/
theorem kind_arithmetic {a b n : Number} (h : arithmetic op a b = .ok n) :
    n.kind = Number.jointKind a b := by
  unfold arithmetic at h
  split at h
  · exact Number.kind_lift h
  · exact Number.kind_lift h
  · exact Number.kind_lift h
  · rw [Number.divide] at h
    split at h
    · cases h
    · exact Number.kind_lift h
  · exact Number.kind_modulo h

theorem applyUnary_not (h : applyUnary .not v = .ok u) : Kind.bool.Admits u.kind := by
  rcases wait_cases h with ⟨_, rfl⟩ | h
  · exact .of_unknown
  · obtain ⟨b, _, h⟩ := bind_eq_ok.mp h
    cases h
    exact .self _

theorem applyUnary_negate (h : applyUnary .negate v = .ok u) :
    (v = .unknown ∧ u = .unknown) ∨ ∃ a, v.toNumber = .ok a ∧ u.kind = a.kind := by
  rcases wait_cases h with hwait | h
  · exact .inl hwait
  · obtain ⟨a, ha, h⟩ := bind_eq_ok.mp h
    cases h
    refine .inr ⟨a, ha, ?_⟩
    rw [Value.kind_ofNumber]
    cases a <;> rfl

theorem applyBinary_arithmetic (hop : op.isLogical = false) (h : applyBinary op v w = .ok u) :
    ((v = .unknown ∨ w = .unknown) ∧ u = .unknown) ∨
      ∃ a b, v.toNumber = .ok a ∧ w.toNumber = .ok b ∧ u.kind = Number.jointKind a b := by
  rcases wait_either_cases h with hwait | h
  · exact .inl hwait
  · split at h
    iterate 6 cases hop
    obtain ⟨a, ha, h⟩ := bind_eq_ok.mp h
    obtain ⟨b, hb, h⟩ := bind_eq_ok.mp h
    split at h
    · next m hm =>
      cases h
      refine .inr ⟨a, b, ha, hb, ?_⟩
      rw [Value.kind_ofNumber, kind_arithmetic hm]
    · cases h

theorem applyBinary_logical (hop : op.isLogical = true) (hstrict : isLazy op = false)
    (h : applyBinary op v w = .ok u) : Kind.bool.Admits u.kind := by
  rcases wait_either_cases h with ⟨_, rfl⟩ | h
  · exact .of_unknown
  · split at h
    iterate 2
      cases h
      exact .self _
    iterate 4
      obtain ⟨a, _, h⟩ := bind_eq_ok.mp h
      obtain ⟨b, _, h⟩ := bind_eq_ok.mp h
      cases h
      exact .self _
    cases op <;> simp_all [BinaryOp.isLogical, BinaryOp.level, isLazy]

theorem firstDecides_kind (h : firstDecides op v = .ok (some u)) : Kind.bool.Admits u.kind := by
  rcases wait_cases h with ⟨_, hu⟩ | h
  · cases hu
    exact .of_unknown
  · obtain ⟨b, _, h⟩ := bind_eq_ok.mp h
    injection h with h
    split at h
    · cases h
      exact .self _
    · cases h

theorem secondDecides_kind (h : secondDecides v = .ok u) : Kind.bool.Admits u.kind := by
  rcases wait_cases h with ⟨_, rfl⟩ | h
  · exact .of_unknown
  · obtain ⟨b, _, h⟩ := bind_eq_ok.mp h
    cases h
    exact .self _

theorem joinParts_kind {values : List Value} (hlength : values.length ≠ 1)
    (h : joinParts values = .ok u) : Kind.string.Admits u.kind := by
  unfold joinParts at h
  split at h
  · exact absurd rfl hlength
  · split at h
    · cases h
      exact .of_unknown
    · obtain ⟨texts, _, h⟩ := bind_eq_ok.mp h
      cases h
      exact .self _

theorem callFree_kind {name : String} {f : ScopeFunction} {values : List Value}
    (hf : ∀ arguments v, f.call arguments = .ok v → f.returns.Admits v.kind)
    (h : callFree name f values = .ok u) : f.returns.Admits u.kind := by
  unfold callFree at h
  split at h
  · cases h
  · split at h
    · cases h
      exact .of_unknown
    · split at h
      · next v hv =>
        cases h
        exact hf _ _ hv
      · cases h
      · cases h
      · cases h
      · cases h

/-! ### The static kind against the value -/

theorem EvaluatesAll.length_eq {nodes : List (Node Origin)} {values : List Value}
    (h : EvaluatesAll scope nodes values visits) : values.length = nodes.length := by
  induction nodes generalizing values visits with
  | nil =>
    cases h
    rfl
  | cons n rest ih =>
    cases h with
    | cons _ hrest => rw [List.length_cons, List.length_cons, ih hrest]

/-- Nothing unknown is used as a number. -/
theorem ne_unknown_of_toNumber {a : Number} (ha : v.toNumber = .ok a) : v ≠ .unknown := by
  rintro rfl
  cases ha

variable {p : Template.Pos} {condition yes no : Node Origin}

theorem admits_negate_iff (hstatic : kindOf scope (.unary p .negate n) = .ok static)
    (hu : Evaluates scope (.unary p .negate n) u visits) :
    static.Admits u.kind ↔ ¬ Misjudged scope (.unary p .negate n) := by
  rw [kindOf] at hstatic
  cases hu with
  | unary hoperand happly =>
    constructor
    · intro hadmits hmisjudged
      cases hmisjudged with
      | negate hstatic' hoperand' ha hmiss =>
        obtain ⟨rfl, _⟩ := hoperand.unique hoperand'
        obtain rfl : static = _ := Except.ok.inj (hstatic.symm.trans hstatic')
        rcases applyUnary_negate happly with ⟨hunknown, _⟩ | ⟨a', ha', hkind⟩
        · exact ne_unknown_of_toNumber ha hunknown
        · obtain rfl : a' = _ := Except.ok.inj (ha'.symm.trans ha)
          exact hmiss (hkind ▸ hadmits)
    · intro hright
      rcases applyUnary_negate happly with ⟨_, rfl⟩ | ⟨a, ha, hkind⟩
      · exact .of_unknown
      · by_contra hmiss
        exact hright (.negate hstatic hoperand ha (hkind ▸ hmiss))

theorem admits_arithmetic_iff (hop : op.isLogical = false)
    (hstatic : kindOf scope (.binary p op left right) = .ok static)
    (hu : Evaluates scope (.binary p op left right) u visits) :
    static.Admits u.kind ↔ ¬ Misjudged scope (.binary p op left right) := by
  have hstrict : isLazy op = false := by
    cases op with
    | and | or => cases hop
    | _ => rfl
  rw [kindOf, if_neg (by simp [hop])] at hstatic
  cases hu with
  | decided hlazy | undecided hlazy => simp [hstrict] at hlazy
  | operands _ hleft hright happly =>
    constructor
    · intro hadmits hmisjudged
      cases hmisjudged with
      | arithmetic _ hstatic' hleft' hright' ha hb hmiss =>
        obtain ⟨rfl, _⟩ := hleft.unique hleft'
        obtain ⟨rfl, _⟩ := hright.unique hright'
        obtain rfl : static = _ := Except.ok.inj (hstatic.symm.trans hstatic')
        rcases applyBinary_arithmetic hop happly with ⟨hunknown, _⟩ | ⟨a', b', ha', hb', hkind⟩
        · rcases hunknown with hunknown | hunknown
          · exact ne_unknown_of_toNumber ha hunknown
          · exact ne_unknown_of_toNumber hb hunknown
        · obtain rfl : a' = _ := Except.ok.inj (ha'.symm.trans ha)
          obtain rfl : b' = _ := Except.ok.inj (hb'.symm.trans hb)
          exact hmiss (hkind ▸ hadmits)
    · intro hright'
      rcases applyBinary_arithmetic hop happly with ⟨_, rfl⟩ | ⟨a, b, ha, hb, hkind⟩
      · exact .of_unknown
      · by_contra hmiss
        exact hright' (.arithmetic hop hstatic hleft hright ha hb (hkind ▸ hmiss))

theorem admits_logical (hop : op.isLogical = true)
    (hstatic : kindOf scope (.binary p op left right) = .ok static)
    (hu : Evaluates scope (.binary p op left right) u visits) : static.Admits u.kind := by
  rw [kindOf, hop] at hstatic
  cases hstatic
  cases hu with
  | decided _ _ hfirst => exact firstDecides_kind hfirst
  | undecided _ _ _ _ hsecond => exact secondDecides_kind hsecond
  | operands hstrict _ _ happly => exact applyBinary_logical hop hstrict happly

theorem admits_conditional_iff
    (hstatic : kindOf scope (.conditional p condition yes no) = .ok static)
    (hyes : ∀ {v visits}, Evaluates scope yes v visits →
      (static.Admits v.kind ↔ ¬ Misjudged scope yes))
    (hu : Evaluates scope (.conditional p condition yes no) u visits) :
    static.Admits u.kind ↔ ¬ Misjudged scope (.conditional p condition yes no) := by
  rw [kindOf] at hstatic
  -- a condition chooses one branch
  have hone : ∀ {c c' first first' choice choice'}, Evaluates scope condition c first →
      Evaluates scope condition c' first' → chooses c = .ok choice → chooses c' = .ok choice' →
        choice = choice' := by
    intro c c' first first' choice choice' hc hc' hchoice hchoice'
    obtain ⟨rfl, _⟩ := hc.unique hc'
    exact Except.ok.inj (hchoice.symm.trans hchoice')
  cases hu with
  | neither hcondition hchoice =>
    refine iff_of_true .of_unknown fun hmisjudged => ?_
    cases hmisjudged with
    | yes hcondition' hchoice' => cases hone hcondition hcondition' hchoice hchoice'
    | no hcondition' hchoice' => cases hone hcondition hcondition' hchoice hchoice'
  | yes hcondition hchoice hbranch =>
    rw [hyes hbranch]
    refine not_congr ⟨.yes hcondition hchoice, fun hmisjudged => ?_⟩
    cases hmisjudged with
    | yes _ _ hyes => exact hyes
    | no hcondition' hchoice' => cases hone hcondition hcondition' hchoice hchoice'
  | no hcondition hchoice hbranch =>
    constructor
    · intro hadmits hmisjudged
      cases hmisjudged with
      | yes hcondition' hchoice' => cases hone hcondition hcondition' hchoice hchoice'
      | no _ _ hstatic' hno hmiss =>
        obtain ⟨rfl, _⟩ := hbranch.unique hno
        obtain rfl : static = _ := Except.ok.inj (hstatic.symm.trans hstatic')
        exact hmiss hadmits
    · intro hright
      by_contra hmiss
      exact hright (.no hcondition hchoice hstatic hbranch hmiss)

theorem admits_output_iff {parts : List (Node Origin)}
    (hstatic : kindOf scope (.output p parts) = .ok static)
    (hpart : ∀ k ∈ parts, ∀ {v visits}, kindOf scope k = .ok static →
      Evaluates scope k v visits → (static.Admits v.kind ↔ ¬ Misjudged scope k))
    (hu : Evaluates scope (.output p parts) u visits) :
    static.Admits u.kind ↔ ¬ Misjudged scope (.output p parts) := by
  cases hu with
  | output hparts hjoin =>
    by_cases hsingle : ∃ k, parts = [k]
    · obtain ⟨k, rfl⟩ := hsingle
      rw [kindOf_output_single] at hstatic
      cases hparts with
      | cons hk hnil =>
        cases hnil
        cases hjoin
        rw [hpart k (List.mem_singleton_self k) hstatic hk]
        refine not_congr ⟨.part, fun hmisjudged => ?_⟩
        cases hmisjudged with
        | part hk => exact hk
    · rw [kindOf] at hstatic
      · cases hstatic
        refine iff_of_true (joinParts_kind ?_ hjoin) fun hmisjudged => ?_
        · intro hlength
          rw [hparts.length_eq] at hlength
          exact hsingle (List.length_eq_one_iff.mp hlength)
        · cases hmisjudged with
          | part => exact hsingle ⟨_, rfl⟩
      · exact fun k hk => hsingle ⟨k, hk⟩

theorem admits_access (hscope : scope.IsTyped) {owner : Option Origin} {name : String}
    (hstatic : kindOf scope (.access owner p name) = .ok static)
    (hu : Evaluates scope (.access owner p name) u visits) : static.Admits u.kind := by
  cases hu with
  | ownedAccess =>
    cases hstatic
    exact .unknown _
  | freeAccess hlookup =>
    obtain ⟨x, hx, hlookup⟩ := bind_eq_ok.mp hlookup
    rw [kindOf, hx] at hstatic
    cases hlookup
    cases hstatic
    exact hscope.variable_kind name x hx

theorem admits_call (hscope : scope.IsTyped) {owner : Option Origin} {function : String}
    {arguments : List (Node Origin)}
    (hstatic : kindOf scope (.call owner p function arguments) = .ok static)
    (hu : Evaluates scope (.call owner p function arguments) u visits) :
    static.Admits u.kind := by
  cases hu with
  | ownedCall =>
    cases hstatic
    exact .unknown _
  | freeCall hf _ hcall =>
    rw [kindOf, hf] at hstatic
    cases hstatic
    exact callFree_kind (hscope.function_kind function _ hf) hcall

/-- The static kind of a tree admits its value unless the tree is misjudged. -/
theorem admits_iff (hscope : scope.IsTyped) (hstatic : kindOf scope n = .ok static)
    (hv : Evaluates scope n v visits) : static.Admits v.kind ↔ ¬ Misjudged scope n := by
  -- a node without a rule is never misjudged, so its static kind must be right
  induction n generalizing static v visits with
  | bare p kids => cases hv
  | output p parts ih => exact admits_output_iff hstatic (fun k hk => ih k hk) hv
  | literal p value =>
    cases hstatic
    cases hv
    exact iff_of_true (.self _) (by rintro ⟨⟩)
  | access owner p name => exact iff_of_true (admits_access hscope hstatic hv) (by rintro ⟨⟩)
  | call owner p function arguments ih =>
    exact iff_of_true (admits_call hscope hstatic hv) (by rintro ⟨⟩)
  | unary p op operand ih =>
    cases op with
    | negate => exact admits_negate_iff hstatic hv
    | not =>
      cases hstatic
      cases hv with
      | unary _ happly => exact iff_of_true (applyUnary_not happly) (by rintro ⟨⟩)
  | binary p op left right ihl ihr =>
    by_cases hop : op.isLogical = true
    · refine iff_of_true (admits_logical hop hstatic hv) fun hmisjudged => ?_
      cases hmisjudged with
      | arithmetic hop' => simp [hop] at hop'
    · exact admits_arithmetic_iff (Bool.not_eq_true _ ▸ hop) hstatic hv
  | conditional p condition yes no ihc ihy ihn =>
    exact admits_conditional_iff hstatic (fun hyes => ihy (by rwa [kindOf] at hstatic) hyes) hv
  | index p target key iht ihk =>
    cases hstatic
    exact iff_of_true (.any _) (by rintro ⟨⟩)

/-! ### Uniform trees -/

/-- A value that is used as a number is a number of the kind it is expected to be, if that is
not the kind of texts. -/
theorem kind_of_admits {a : Number} (hadmits : static.Admits v.kind) (ha : v.toNumber = .ok a)
    (hstring : static ≠ .string) : static.Admits a.kind := by
  rcases Value.kind_of_toNumber ha with hkind | hkind
  · exact hkind ▸ hadmits
  · rcases hadmits with h | h | h
    · exact absurd (h.symm.trans hkind) hstring
    · cases h.symm.trans hkind
    · exact .inr (.inr h)

/-- A uniform tree is never misjudged. -/
theorem Uniform.not_misjudged (hscope : scope.IsTyped) (h : Uniform scope n) :
    ¬ Misjudged scope n := by
  -- the number that an operand of the right kind is used as
  have hnumber : ∀ {k static v visits} {a : Number}, ¬ Misjudged scope k →
      kindOf scope k = .ok static → Evaluates scope k v visits → v.toNumber = .ok a →
        static ≠ .string → static.Admits a.kind :=
    fun hk hstatic hv ha hstring =>
      kind_of_admits ((admits_iff hscope hstatic hv).mpr hk) ha hstring
  intro hmisjudged
  induction h with
  | output h ih =>
    cases hmisjudged with
    | part hk => exact ih _ rfl hk
  | literal | access | call | not | index => cases hmisjudged
  | negate h hstring ih =>
    cases hmisjudged with
    | negate hstatic hoperand ha hmiss =>
      refine hmiss (hnumber ih hstatic hoperand ha ?_)
      rintro rfl
      exact hstring hstatic
  | logical hop =>
    cases hmisjudged with
    | arithmetic hop' => simp [hop] at hop'
  | whole hl hr hleft hright ihl ihr =>
    -- both operands are used as whole numbers, and these give a whole number
    cases hmisjudged with
    | @arithmetic _ _ _ _ _ _ _ a b _ _ _ hstatic hleft' hright' ha hb hmiss =>
      cases hleft.symm.trans hstatic
      have ha' := hnumber ihl hleft hleft' ha nofun
      have hb' := hnumber ihr hright hright' hb nofun
      cases a with
      | float x => simp [Kind.Admits, Number.kind] at ha'
      | int i =>
        cases b with
        | float y => simp [Kind.Admits, Number.kind] at hb'
        | int j => exact hmiss (.self _)
  | fractional hl hleft ih =>
    -- the first operand alone makes the result fractional
    cases hmisjudged with
    | @arithmetic _ _ _ _ _ _ _ a b _ _ _ hstatic hleft' _ ha _ hmiss =>
      cases hleft.symm.trans hstatic
      have ha' := hnumber ih hleft hleft' ha nofun
      cases a with
      | int i => simp [Kind.Admits, Number.kind] at ha'
      | float x => exact hmiss (.self _)
  | conditional hy hn hsame ihy ihn =>
    cases hmisjudged with
    | yes _ _ hyes => exact ihy hyes
    | no _ _ hstatic hno hmiss =>
      exact hmiss ((admits_iff hscope (hsame ▸ hstatic) hno).mpr fun hno => ihn hno)

/-- **How far static kinds are right.**  In a scope whose kinds tell the truth, a tree with a
static kind evaluates to a value that the kind admits, unless the tree is misjudged.  A
uniform tree never is. -/
theorem kindOf_admits_iff (hscope : scope.IsTyped) (hstatic : kindOf scope n = .ok static)
    {ws ws' : Diagnostics} (hv : eval scope n ws = .ok (v, ws')) :
    (static.Admits v.kind ↔ ¬ Misjudged scope n) ∧ (Uniform scope n → static.Admits v.kind) := by
  obtain ⟨visits, hvisits, _⟩ := (eval_gives scope n ws v ws').mp hv
  have hiff := admits_iff hscope hstatic hvisits
  exact ⟨hiff, fun huniform => hiff.mpr (huniform.not_misjudged hscope)⟩

/-- A scope in which `count` is a whole number. -/
private def counting : Scope :=
  ⟨[("count", .ofValue (.int 2))], [], none⟩

/-- The tree of `count * 3`. -/
private def product : Node Origin :=
  .binary .zero .multiply (.access none .zero "count") (.literal .zero (.int 3))

/-- In `count * 3` whole numbers give a whole number. -/
theorem kindOf_admits_product :
    counting.IsTyped ∧ kindOf counting product = .ok .int ∧
      eval counting product [] = .ok (.int 6, []) ∧ Kind.int.Admits (Value.int 6).kind := by
  have htyped : counting.IsTyped := by
    constructor
    · intro name x hx
      by_cases hname : name = "count"
      · subst hname
        cases hx
        exact .self _
      · simp [Scope.findVariable, counting, List.lookup_cons, beq_false_of_ne hname] at hx
    · intro name f hf
      cases hf
  have hvalue : eval counting product [] = .ok (.int 6, []) := rfl
  have huniform : Uniform counting product := .whole .access .literal rfl rfl
  exact ⟨htyped, rfl, hvalue, (kindOf_admits_iff htyped rfl hvalue).2 huniform⟩

/-- In `${-"5"}` a text is used as a number: the static kind is that of texts, and the value
is a whole number. -/
theorem kindOf_negatedText :
    Scope.empty.IsTyped ∧ ∃ n : Node Origin, Template.parse "$\x7b-\"5\"\x7d" ⟨"", 1, 1⟩ = .ok n ∧
      kindOf .empty n = .ok .string ∧ eval .empty n [] = .ok (.int (-5), []) ∧
      ¬ Kind.string.Admits (Value.int (-5)).kind := by
  refine ⟨⟨by rintro name x ⟨⟩, by rintro name f ⟨⟩⟩,
    .output ⟨"", 1, 1⟩ [.unary ⟨"", 1, 3⟩ .negate (.literal ⟨"", 1, 5⟩ (.text "5"))],
    by with_unfolding_all rfl, rfl, by with_unfolding_all rfl, ?_⟩
  simp [Kind.Admits, Value.kind]

end Evaluation

end Interpolation
