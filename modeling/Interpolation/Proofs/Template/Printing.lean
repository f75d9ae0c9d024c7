/-
Reading undoes printing.

* `Printed`, `PrintedIn` — how an expression can be written: with parentheses around every
  operand that is bound less tightly than its slot requires, and around any other one;
* `PrintedIn.readable` — whatever an expression is written with is derived, and means the
  expression;
* `parse_printed` — an interpolation of a printed expression is read back.

Design notes: a tree does not fix how it is written, since parentheses are free where they
are not needed, whole numbers may have leading zeros and white space is free.  So printing
is a relation, with at least one way to print each expression.  Positions are the only thing
that is lost.
-/
import Interpolation.Proofs.Template.Layout
import Interpolation.Proofs.Template.Recognition
import Mathlib.Data.List.Forall2
import Mathlib.Data.List.Induction

namespace Interpolation.Template

variable {Owner : Type}

namespace Node

/-- A node with its own position forgotten. -/
def unplace : Node Owner → Node Owner
  | .bare _ kids => .bare .zero kids
  | .output _ parts => .output .zero parts
  | .literal _ value => .literal .zero value
  | .access owner _ name => .access owner .zero name
  | .call owner _ function arguments => .call owner .zero function arguments
  | .unary _ op operand => .unary .zero op operand
  | .binary _ op left right => .binary .zero op left right
  | .conditional _ condition yes no => .conditional .zero condition yes no
  | .index _ target key => .index .zero target key

/-- A tree with all positions forgotten. -/
def unplaced (n : Node Owner) : Node Owner :=
  n.rebuild unplace

@[simp] theorem unplaced_literal (pos : Pos) (value : Value) :
    (Node.literal pos value : Node Owner).unplaced = .literal .zero value := by
  simp [unplaced, rebuild, unplace]

@[simp] theorem unplaced_access (owner : Option Owner) (pos : Pos) (name : String) :
    (Node.access owner pos name).unplaced = .access owner .zero name := by
  simp [unplaced, rebuild, unplace]

@[simp] theorem unplaced_call (owner : Option Owner) (pos : Pos) (function : String)
    (arguments : List (Node Owner)) :
    (Node.call owner pos function arguments).unplaced =
      .call owner .zero function (arguments.map unplaced) := by
  simp [unplaced, rebuild, unplace, rebuildAll_eq_map]

@[simp] theorem unplaced_unary (pos : Pos) (op : UnaryOp) (operand : Node Owner) :
    (Node.unary pos op operand).unplaced = .unary .zero op operand.unplaced := by
  simp [unplaced, rebuild, unplace]

@[simp] theorem unplaced_binary (pos : Pos) (op : BinaryOp) (left right : Node Owner) :
    (Node.binary pos op left right).unplaced =
      .binary .zero op left.unplaced right.unplaced := by
  simp [unplaced, rebuild, unplace]

@[simp] theorem unplaced_conditional (pos : Pos) (condition yes no : Node Owner) :
    (Node.conditional pos condition yes no).unplaced =
      .conditional .zero condition.unplaced yes.unplaced no.unplaced := by
  simp [unplaced, rebuild, unplace]

@[simp] theorem unplaced_index (pos : Pos) (target key : Node Owner) :
    (Node.index pos target key).unplaced = .index .zero target.unplaced key.unplaced := by
  simp [unplaced, rebuild, unplace]

/-- The rule with the alternative for a node. -/
def rule : Node Owner → Rule
  | .conditional .. => .expr
  | .binary _ op _ _ => op.rule
  | .unary .. => .unary
  | .index .. => .indexed
  | _ => .atom

/-- Trees of the expression language: whole numbers without a sign that are not too long,
bools, variables and calls with the names that can be written, and operators. -/
inductive IsExpression : Node Owner → Prop where
  | int {pos : Pos} {n : Nat} (hlimit : (Digits.ofNat n).length ≤ Digits.digitLimit) :
    IsExpression (.literal pos (.int n))
  | bool {pos : Pos} {b : Bool} : IsExpression (.literal pos (.bool b))
  | access {pos : Pos} {name : String} (hname : IsName name.toList)
    (hword : ¬ IsKeyword name.toList) : IsExpression (.access none pos name)
  | call {pos : Pos} {function : String} {arguments : List (Node Owner)}
    (hname : IsName function.toList) (hword : ¬ IsKeyword function.toList)
    (h : ∀ a ∈ arguments, IsExpression a) : IsExpression (.call none pos function arguments)
  | unary {pos : Pos} {op : UnaryOp} {operand : Node Owner} (h : IsExpression operand) :
    IsExpression (.unary pos op operand)
  | binary {pos : Pos} {op : BinaryOp} {left right : Node Owner} (hl : IsExpression left)
    (hr : IsExpression right) : IsExpression (.binary pos op left right)
  | conditional {pos : Pos} {condition yes no : Node Owner} (hc : IsExpression condition)
    (hy : IsExpression yes) (hn : IsExpression no) :
    IsExpression (.conditional pos condition yes no)
  | index {pos : Pos} {target key : Node Owner} (ht : IsExpression target)
    (hk : IsExpression key) : IsExpression (.index pos target key)

end Node

/-! ### How expressions are written -/

mutual

/-- A tree is written with these tokens, without parentheses around the whole. -/
inductive Printed : Node Owner → List Token → Prop where
  | int {pos : Pos} {digits : List Char} (hdigits : IsDigits digits)
    (hlimit : digits.length ≤ Digits.digitLimit) :
    Printed (.literal pos (.int (Digits.toNat digits))) [.number digits]
  | bool {pos : Pos} {b : Bool} : Printed (.literal pos (.bool b)) [.bool b]
  | access {pos : Pos} {name : String} (hname : IsName name.toList)
    (hword : ¬ IsKeyword name.toList) : Printed (.access none pos name) [.name name.toList]
  | callEmpty {pos : Pos} {function : String} (hname : IsName function.toList)
    (hword : ¬ IsKeyword function.toList) :
    Printed (.call none pos function []) [.name function.toList, .openParen, .closeParen]
  | call {pos : Pos} {function : String} {arguments : List (Node Owner)} {as : List Token}
    (hname : IsName function.toList) (hword : ¬ IsKeyword function.toList)
    (h : PrintedArguments arguments as) :
    Printed (.call none pos function arguments)
      (.name function.toList :: .openParen :: (as ++ [.closeParen]))
  | unary {pos : Pos} {op : UnaryOp} {operand : Node Owner} {tokens : List Token}
    (h : PrintedIn .unary operand tokens) :
    Printed (.unary pos op operand) (Phrase.unaryToken op :: tokens)
  | binary {pos : Pos} {op : BinaryOp} {left right : Node Owner} {ls rs : List Token}
    (hl : PrintedIn op.leftRule left ls) (hr : PrintedIn op.rule.tighter right rs) :
    Printed (.binary pos op left right) (ls ++ .operator op :: rs)
  | conditional {pos : Pos} {condition yes no : Node Owner} {cs ys ns : List Token}
    (hc : PrintedIn .or condition cs) (hy : PrintedIn .expr yes ys)
    (hn : PrintedIn .expr no ns) :
    Printed (.conditional pos condition yes no) (cs ++ .question :: (ys ++ .colon :: ns))
  | index {pos : Pos} {target key : Node Owner} {ts ks : List Token}
    (ht : PrintedIn .indexed target ts) (hk : PrintedIn .expr key ks) :
    Printed (.index pos target key) (ts ++ .openBracket :: (ks ++ [.closeBracket]))

/-- A tree is written with these tokens in a slot for what a rule derives.  Parentheses
can be left out when the tree is bound tightly enough. -/
inductive PrintedIn : Rule → Node Owner → List Token → Prop where
  | bare {slot : Rule} {n : Node Owner} {tokens : List Token}
    (hslot : slot.level ≤ n.rule.level) (h : Printed n tokens) : PrintedIn slot n tokens
  | parens {slot : Rule} {n : Node Owner} {tokens : List Token}
    (h : PrintedIn .expr n tokens) :
    PrintedIn slot n (.openParen :: (tokens ++ [.closeParen]))

/-- Arguments are written with these tokens. -/
inductive PrintedArguments : List (Node Owner) → List Token → Prop where
  | one {n : Node Owner} {tokens : List Token} (h : PrintedIn .expr n tokens) :
    PrintedArguments [n] tokens
  | more {nodes : List (Node Owner)} {n : Node Owner} {as tokens : List Token}
    (hinit : PrintedArguments nodes as) (h : PrintedIn .expr n tokens) :
    PrintedArguments (nodes ++ [n]) (as ++ .comma :: tokens)

end

/-! ### Every expression can be written -/

theorem exists_printedArguments {arguments : List (Node Owner)} (hne : arguments ≠ [])
    (h : ∀ a ∈ arguments, ∃ tokens, Printed a tokens) :
    ∃ tokens, PrintedArguments arguments tokens := by
  induction arguments using List.reverseRecOn with
  | nil => contradiction
  | append_singleton init last ih =>
    obtain ⟨hinit, hlast⟩ := List.forall_mem_append.mp h
    obtain ⟨tokens, htokens⟩ := hlast last List.mem_cons_self
    have hin : PrintedIn .expr last tokens := .bare (Nat.zero_le _) htokens
    by_cases hnil : init = []
    · rw [hnil]
      exact ⟨tokens, .one hin⟩
    · obtain ⟨as, has⟩ := ih hnil hinit
      exact ⟨_, .more has hin⟩

theorem Printed.parens {n : Node Owner} {tokens : List Token} (h : Printed n tokens)
    (slot : Rule) : PrintedIn slot n (.openParen :: (tokens ++ [.closeParen])) :=
  .parens (.bare (Nat.zero_le _) h)

/-- Every expression can be written. -/
theorem Node.IsExpression.exists_printed {n : Node Owner} (h : n.IsExpression) :
    ∃ tokens, Printed n tokens := by
  induction h with
  | @int pos n hlimit =>
    have hprinted : Printed (.literal pos (.int (Digits.toNat (Digits.ofNat n))) : Node Owner)
        [.number (Digits.ofNat n)] := .int (isDigits_ofNat n) hlimit
    rw [toNat_ofNat] at hprinted
    exact ⟨_, hprinted⟩
  | bool => exact ⟨_, .bool⟩
  | access hname hword => exact ⟨_, .access hname hword⟩
  | @call pos function arguments hname hword _ ih =>
    by_cases hnil : arguments = []
    · rw [hnil]
      exact ⟨_, .callEmpty hname hword⟩
    · obtain ⟨as, has⟩ := exists_printedArguments hnil ih
      exact ⟨_, .call hname hword has⟩
  | unary _ ih =>
    obtain ⟨tokens, h⟩ := ih
    exact ⟨_, .unary (h.parens _)⟩
  | binary _ _ ihl ihr =>
    obtain ⟨ls, hl⟩ := ihl
    obtain ⟨rs, hr⟩ := ihr
    exact ⟨_, .binary (hl.parens _) (hr.parens _)⟩
  | conditional _ _ _ ihc ihy ihn =>
    obtain ⟨cs, hc⟩ := ihc
    obtain ⟨ys, hy⟩ := ihy
    obtain ⟨ns, hn⟩ := ihn
    exact ⟨_, .conditional (hc.parens _) (hy.parens _) (hn.parens _)⟩
  | index _ _ iht ihk =>
    obtain ⟨ts, ht⟩ := iht
    obtain ⟨ks, hk⟩ := ihk
    exact ⟨_, .index (ht.parens _) (hk.parens _)⟩

/-! ### What is written is derived -/

/-- The node of a phrase is a given tree, wherever the phrase stands. -/
def Means (p : Phrase) (n : Node Owner) : Prop :=
  ∀ (locate : Nat → Pos) (string : Nat → List Char → Except ParseFailure (Node Owner)),
    ∃ m, Node.ofPhrase locate string p = .ok m ∧ m.unplaced = n.unplaced

theorem Means.arguments {phrases : List Phrase} {nodes : List (Node Owner)}
    (h : List.Forall₂ Means phrases nodes) (locate : Nat → Pos)
    (string : Nat → List Char → Except ParseFailure (Node Owner)) :
    ∃ ms, Node.ofArguments locate string phrases = .ok ms ∧
      ms.map Node.unplaced = nodes.map Node.unplaced := by
  induction h with
  | nil => exact ⟨[], by rw [Node.ofArguments], rfl⟩
  | cons hfirst _ ih =>
    obtain ⟨m, hm, hplace⟩ := hfirst locate string
    obtain ⟨ms, hms, hplaces⟩ := ih
    refine ⟨m :: ms, ?_, by rw [List.map_cons, List.map_cons, hplace, hplaces]⟩
    rw [Node.ofArguments, hm, hms]
    rfl

/-- Whatever offsets the tokens have, a rule derives them and they mean a tree. -/
structure Readable (r : Rule) (n : Node Owner) (tokens : List Token) : Prop where
  plain : ∀ t ∈ tokens, t.Plain
  derived : ∀ lexemes : List Lexeme, lexemes.map Lexeme.token = tokens →
    ∃ p, Derives r p lexemes ∧ Means p n

/-- The same for the arguments of a call. -/
structure ReadableArguments (nodes : List (Node Owner)) (tokens : List Token) : Prop where
  plain : ∀ t ∈ tokens, t.Plain
  derived : ∀ lexemes : List Lexeme, lexemes.map Lexeme.token = tokens →
    ∃ a : Arguments, a.yield = lexemes ∧ List.Forall₂ Means a.phrases nodes

theorem Readable.loosen {r r' : Rule} {n : Node Owner} {tokens : List Token}
    (h : Readable r n tokens) (hle : r'.level ≤ r.level) : Readable r' n tokens := by
  refine ⟨h.plain, fun lexemes hlexemes => ?_⟩
  obtain ⟨p, hderives, hmeans⟩ := h.derived lexemes hlexemes
  exact ⟨p, hderives.loosen r' hle, hmeans⟩

theorem map_token_eq_cons {lexemes : List Lexeme} {token : Token} {tokens : List Token}
    (h : lexemes.map Lexeme.token = token :: tokens) :
    ∃ offset rest, lexemes = ⟨token, offset⟩ :: rest ∧ rest.map Lexeme.token = tokens := by
  obtain ⟨⟨first, offset⟩, rest, rfl, rfl, hrest⟩ := List.map_eq_cons_iff.mp h
  exact ⟨offset, rest, rfl, hrest⟩

theorem map_token_eq_singleton {lexemes : List Lexeme} {token : Token}
    (h : lexemes.map Lexeme.token = [token]) : ∃ offset, lexemes = [⟨token, offset⟩] := by
  obtain ⟨offset, rest, rfl, hrest⟩ := map_token_eq_cons h
  exact ⟨offset, by rw [List.map_eq_nil_iff.mp hrest]⟩

/-- A token with others on both sides of it. -/
theorem map_token_eq_around {lexemes : List Lexeme} {token : Token} {before after : List Token}
    (h : lexemes.map Lexeme.token = before ++ token :: after) :
    ∃ ls offset rs, lexemes = ls ++ ⟨token, offset⟩ :: rs ∧
      ls.map Lexeme.token = before ∧ rs.map Lexeme.token = after := by
  obtain ⟨ls, rest, rfl, hls, hrest⟩ := List.map_eq_append_iff.mp h
  obtain ⟨offset, rs, rfl, hrs⟩ := map_token_eq_cons hrest
  exact ⟨ls, offset, rs, rfl, hls, hrs⟩

theorem map_token_eq_concat {lexemes : List Lexeme} {token : Token} {before : List Token}
    (h : lexemes.map Lexeme.token = before ++ [token]) :
    ∃ ls offset, lexemes = ls ++ [⟨token, offset⟩] ∧ ls.map Lexeme.token = before := by
  obtain ⟨ls, offset, rs, rfl, hls, hrs⟩ := map_token_eq_around h
  exact ⟨ls, offset, by rw [List.map_eq_nil_iff.mp hrs], hls⟩

theorem Readable.int {digits : List Char} (hdigits : IsDigits digits)
    (hlimit : digits.length ≤ Digits.digitLimit) (pos : Pos) :
    Readable .atom (.literal pos (.int (Digits.toNat digits)) : Node Owner)
      [.number digits] := by
  refine ⟨fun t ht => ?_, fun lexemes hlexemes => ?_⟩
  · rw [List.mem_singleton.mp ht]
    exact ⟨.inl hdigits, IsNumber.isPlain (.inl hdigits)⟩
  · obtain ⟨offset, rfl⟩ := map_token_eq_singleton hlexemes
    refine ⟨_, ⟨.number offset digits, rfl, rfl⟩, fun locate string => ?_⟩
    refine ⟨.literal (locate offset) (.int (Digits.toNat digits)), ?_, by simp⟩
    rw [Derivation.phrase, Node.ofPhrase, Node.ofNumber,
      Number.ofUnsigned?_digits hdigits.1 hdigits.2, Digits.toNat?, if_pos hlimit]
    rfl

theorem Readable.bool (pos : Pos) (b : Bool) :
    Readable .atom (.literal pos (.bool b) : Node Owner) [.bool b] := by
  refine ⟨fun t ht => ?_, fun lexemes hlexemes => ?_⟩
  · rw [List.mem_singleton.mp ht]
    cases b with
    | true => exact ⟨trivial, (isName_keyword (.inl rfl)).isPlain⟩
    | false => exact ⟨trivial, (isName_keyword (.inr rfl)).isPlain⟩
  · obtain ⟨offset, rfl⟩ := map_token_eq_singleton hlexemes
    refine ⟨_, ⟨.bool offset b, rfl, rfl⟩, fun locate string => ?_⟩
    refine ⟨.literal (locate offset) (.bool b), ?_, by simp⟩
    rw [Derivation.phrase, Node.ofPhrase]

theorem Readable.access {name : String} (hname : IsName name.toList)
    (hword : ¬ IsKeyword name.toList) (pos : Pos) :
    Readable .atom (.access none pos name : Node Owner) [.name name.toList] := by
  refine ⟨fun t ht => ?_, fun lexemes hlexemes => ?_⟩
  · rw [List.mem_singleton.mp ht]
    exact plain_name hname hword
  · obtain ⟨offset, rfl⟩ := map_token_eq_singleton hlexemes
    refine ⟨_, ⟨.name offset name.toList, rfl, rfl⟩, fun locate string => ?_⟩
    refine ⟨.access none (locate offset) name, ?_, by simp⟩
    rw [Derivation.phrase, Node.ofPhrase, String.ofList_toList]

theorem Readable.callEmpty {function : String} (hname : IsName function.toList)
    (hword : ¬ IsKeyword function.toList) (pos : Pos) :
    Readable .atom (.call none pos function [] : Node Owner)
      [.name function.toList, .openParen, .closeParen] := by
  refine ⟨?_, fun lexemes hlexemes => ?_⟩
  · simp only [List.forall_mem_cons]
    exact ⟨plain_name hname hword, plain_mark (by decide), plain_mark (by decide), by simp⟩
  · obtain ⟨offset, rest, rfl, hrest⟩ := map_token_eq_cons hlexemes
    obtain ⟨openParen, rest, rfl, hlast⟩ := map_token_eq_cons hrest
    obtain ⟨closeParen, rfl⟩ := map_token_eq_singleton hlast
    refine ⟨_, ⟨.callEmpty offset function.toList openParen closeParen, rfl, rfl⟩,
      fun locate string => ?_⟩
    refine ⟨.call none (locate offset) function [], ?_, by simp⟩
    rw [Derivation.phrase, Node.ofPhrase, Node.ofArguments, String.ofList_toList]
    rfl

theorem ReadableArguments.call {arguments : List (Node Owner)} {as : List Token}
    (h : ReadableArguments arguments as) {function : String} (hname : IsName function.toList)
    (hword : ¬ IsKeyword function.toList) (pos : Pos) :
    Readable .atom (.call none pos function arguments)
      (.name function.toList :: .openParen :: (as ++ [.closeParen])) := by
  refine ⟨?_, fun lexemes hlexemes => ?_⟩
  · simp only [List.forall_mem_cons, List.forall_mem_append]
    exact ⟨plain_name hname hword, plain_mark (by decide), h.plain, plain_mark (by decide), by simp⟩
  · obtain ⟨offset, rest, rfl, hrest⟩ := map_token_eq_cons hlexemes
    obtain ⟨openParen, rest, rfl, hbehind⟩ := map_token_eq_cons hrest
    obtain ⟨ls, closeParen, rfl, hls⟩ := map_token_eq_concat hbehind
    obtain ⟨a, rfl, hmeans⟩ := h.derived ls hls
    refine ⟨_, ⟨.call offset function.toList openParen a closeParen, rfl, rfl⟩,
      fun locate string => ?_⟩
    obtain ⟨ms, hms, hplaces⟩ := Means.arguments hmeans locate string
    refine ⟨.call none (locate offset) function ms, ?_, by simp [hplaces]⟩
    rw [Derivation.phrase, Node.ofPhrase, hms, String.ofList_toList]
    rfl

theorem Readable.unary {operand : Node Owner} {tokens : List Token}
    (h : Readable .unary operand tokens) (pos : Pos) (op : UnaryOp) :
    Readable .unary (.unary pos op operand) (Phrase.unaryToken op :: tokens) := by
  refine ⟨List.forall_mem_cons.mpr ⟨plain_unaryToken op, h.plain⟩, fun lexemes hlexemes => ?_⟩
  obtain ⟨offset, rest, rfl, hrest⟩ := map_token_eq_cons hlexemes
  obtain ⟨_, ⟨d, rfl, rfl⟩, hmeans⟩ := h.derived rest hrest
  refine ⟨_, ⟨.unary op offset d, rfl, rfl⟩, fun locate string => ?_⟩
  obtain ⟨m, hm, hplace⟩ := hmeans locate string
  refine ⟨.unary (locate offset) op m, ?_, by simp [hplace]⟩
  rw [Derivation.phrase, Node.ofPhrase, hm]
  rfl

theorem Readable.binary {op : BinaryOp} {left right : Node Owner} {ls rs : List Token}
    (hl : Readable op.leftRule left ls) (hr : Readable op.rule.tighter right rs) (pos : Pos) :
    Readable op.rule (.binary pos op left right) (ls ++ .operator op :: rs) := by
  refine ⟨?_, fun lexemes hlexemes => ?_⟩
  · simp only [List.forall_mem_append, List.forall_mem_cons]
    exact ⟨hl.plain, plain_operator op, hr.plain⟩
  · obtain ⟨ls, offset, rs, rfl, hls, hrs⟩ := map_token_eq_around hlexemes
    obtain ⟨_, ⟨dl, rfl, rfl⟩, hleft⟩ := hl.derived ls hls
    obtain ⟨_, ⟨dr, rfl, rfl⟩, hright⟩ := hr.derived rs hrs
    refine ⟨_, ⟨.binary op rfl dl offset dr, rfl, rfl⟩, fun locate string => ?_⟩
    obtain ⟨l, hl, hlplace⟩ := hleft locate string
    obtain ⟨r, hr, hrplace⟩ := hright locate string
    refine ⟨.binary (locate dl.phrase.start) op l r, ?_, by simp [hlplace, hrplace]⟩
    rw [Derivation.phrase, Node.ofPhrase, hl, hr]
    rfl

theorem Readable.conditional {condition yes no : Node Owner} {cs ys ns : List Token}
    (hc : Readable .or condition cs) (hy : Readable .expr yes ys) (hn : Readable .expr no ns)
    (pos : Pos) :
    Readable .expr (.conditional pos condition yes no)
      (cs ++ .question :: (ys ++ .colon :: ns)) := by
  refine ⟨?_, fun lexemes hlexemes => ?_⟩
  · simp only [List.forall_mem_append, List.forall_mem_cons]
    exact ⟨hc.plain, plain_mark (by decide), hy.plain, plain_mark (by decide), hn.plain⟩
  · obtain ⟨cs, question, rest, rfl, hcs, hrest⟩ := map_token_eq_around hlexemes
    obtain ⟨ys, colon, ns, rfl, hys, hns⟩ := map_token_eq_around hrest
    obtain ⟨_, ⟨dc, rfl, rfl⟩, hc⟩ := hc.derived cs hcs
    obtain ⟨_, ⟨dy, rfl, rfl⟩, hy⟩ := hy.derived ys hys
    obtain ⟨_, ⟨dn, rfl, rfl⟩, hn⟩ := hn.derived ns hns
    refine ⟨_, ⟨.conditional dc question dy colon dn, rfl, rfl⟩, fun locate string => ?_⟩
    obtain ⟨c, hc, hcplace⟩ := hc locate string
    obtain ⟨y, hy, hyplace⟩ := hy locate string
    obtain ⟨n, hn, hnplace⟩ := hn locate string
    refine ⟨.conditional (locate dc.phrase.start) c y n, ?_, by simp [hcplace, hyplace, hnplace]⟩
    rw [Derivation.phrase, Node.ofPhrase, hc, hy, hn]
    rfl

theorem Readable.index {target key : Node Owner} {ts ks : List Token}
    (ht : Readable .indexed target ts) (hk : Readable .expr key ks) (pos : Pos) :
    Readable .indexed (.index pos target key)
      (ts ++ .openBracket :: (ks ++ [.closeBracket])) := by
  refine ⟨?_, fun lexemes hlexemes => ?_⟩
  · simp only [List.forall_mem_append, List.forall_mem_cons]
    exact ⟨ht.plain, plain_mark (by decide), hk.plain, plain_mark (by decide), by simp⟩
  · obtain ⟨ts, openBracket, rest, rfl, hts, hrest⟩ := map_token_eq_around hlexemes
    obtain ⟨ks, closeBracket, rfl, hks⟩ := map_token_eq_concat hrest
    obtain ⟨_, ⟨dt, rfl, rfl⟩, ht⟩ := ht.derived ts hts
    obtain ⟨_, ⟨dk, rfl, rfl⟩, hk⟩ := hk.derived ks hks
    refine ⟨_, ⟨.index dt openBracket dk closeBracket, rfl, rfl⟩, fun locate string => ?_⟩
    obtain ⟨t, ht, htplace⟩ := ht locate string
    obtain ⟨k, hk, hkplace⟩ := hk locate string
    refine ⟨.index (locate dt.phrase.start) t k, ?_, by simp [htplace, hkplace]⟩
    rw [Derivation.phrase, Node.ofPhrase, ht, hk]
    rfl

theorem Readable.parens {n : Node Owner} {tokens : List Token} (h : Readable .expr n tokens) :
    Readable .atom n (.openParen :: (tokens ++ [.closeParen])) := by
  refine ⟨?_, fun lexemes hlexemes => ?_⟩
  · simp only [List.forall_mem_append, List.forall_mem_cons]
    exact ⟨plain_mark (by decide), h.plain, plain_mark (by decide), by simp⟩
  · obtain ⟨openParen, rest, rfl, hrest⟩ := map_token_eq_cons hlexemes
    obtain ⟨ls, closeParen, rfl, hls⟩ := map_token_eq_concat hrest
    obtain ⟨_, ⟨d, rfl, rfl⟩, hmeans⟩ := h.derived ls hls
    refine ⟨_, ⟨.group openParen d closeParen, rfl, rfl⟩, fun locate string => ?_⟩
    rw [Derivation.phrase, Node.ofPhrase_group]
    exact hmeans locate string

theorem Readable.one {n : Node Owner} {tokens : List Token} (h : Readable .expr n tokens) :
    ReadableArguments [n] tokens := by
  refine ⟨h.plain, fun lexemes hlexemes => ?_⟩
  obtain ⟨_, ⟨d, rfl, rfl⟩, hmeans⟩ := h.derived lexemes hlexemes
  exact ⟨.one d, rfl, .cons hmeans .nil⟩

theorem ReadableArguments.more {nodes : List (Node Owner)} {n : Node Owner}
    {as tokens : List Token} (hinit : ReadableArguments nodes as)
    (h : Readable .expr n tokens) :
    ReadableArguments (nodes ++ [n]) (as ++ .comma :: tokens) := by
  refine ⟨?_, fun lexemes hlexemes => ?_⟩
  · simp only [List.forall_mem_append, List.forall_mem_cons]
    exact ⟨hinit.plain, plain_mark (by decide), h.plain⟩
  · obtain ⟨ls, comma, rs, rfl, hls, hrs⟩ := map_token_eq_around hlexemes
    obtain ⟨a, rfl, hall⟩ := hinit.derived ls hls
    obtain ⟨_, ⟨d, rfl, rfl⟩, hmeans⟩ := h.derived rs hrs
    refine ⟨.more a comma d, rfl, ?_⟩
    rw [Arguments.phrases]
    exact List.rel_append hall (.cons hmeans .nil)

mutual

theorem Printed.readable {n : Node Owner} {tokens : List Token} :
    Printed n tokens → Readable n.rule n tokens
  | .int hdigits hlimit => .int hdigits hlimit _
  | .bool => .bool _ _
  | .access hname hword => .access hname hword _
  | .callEmpty hname hword => .callEmpty hname hword _
  | .call hname hword h => h.readable.call hname hword _
  | .unary h => h.readable.unary _ _
  | .binary hl hr => hl.readable.binary hr.readable _
  | .conditional hc hy hn => hc.readable.conditional hy.readable hn.readable _
  | .index ht hk => ht.readable.index hk.readable _

/-- **Whatever an expression is written with is derived and means the expression.** -/
theorem PrintedIn.readable {slot : Rule} {n : Node Owner} {tokens : List Token} :
    PrintedIn slot n tokens → Readable slot n tokens
  | .bare hslot h => h.readable.loosen hslot
  | .parens h => h.readable.parens.loosen slot.level_le

theorem PrintedArguments.readable {nodes : List (Node Owner)} {tokens : List Token} :
    PrintedArguments nodes tokens → ReadableArguments nodes tokens
  | .one h => h.readable.one
  | .more hinit h => hinit.readable.more h.readable

end

/-! ### Reading undoes printing -/

/-- The first closing brace closes an interpolation without braces and string literals. -/
theorem takeCode_plain {source : List Char}
    (h : ∀ c ∈ source, c ≠ '"' ∧ c ≠ '\x7b' ∧ c ≠ '\x7d') (rest : List Char) :
    Piece.takeCode (.code 0) (source ++ '\x7d' :: rest) = some (source, rest) := by
  induction source with
  | nil => rfl
  | cons c cs ih =>
    obtain ⟨⟨hquote, hopen, hclose⟩, hcs⟩ := List.forall_mem_cons.mp h
    have hpass : (Piece.Within.code 0).pass c = some (.code 0) := by
      rw [Piece.Within.pass, if_neg hquote, if_neg hopen, if_neg hclose]
    rw [List.cons_append, Piece.takeCode, hpass]
    simp [ih hcs]

/-- A template that is one interpolation. -/
theorem parse_interpolation {source : List Char}
    (h : Piece.takeCode (.code 0) (source ++ ['\x7d']) = some (source, [])) (start : Pos) :
    ∃ (locate : Nat → Pos) (string : Nat → List Char → Except ParseFailure (Node Owner)),
      parse ("$\x7b" ++ String.ofList source ++ "\x7d") start =
        (expression locate string 2 source).map fun m => .output start [m] := by
  have hchars : ("$\x7b" ++ String.ofList source ++ "\x7d").toList =
      '$' :: '\x7b' :: (source ++ ['\x7d']) := by
    simp
  have hsplit : Piece.split 0 ('$' :: '\x7b' :: (source ++ ['\x7d'])) = [.code 2 source] := by
    rw [Piece.split_open 0 h, Piece.split_nil]
  generalize '$' :: '\x7b' :: (source ++ ['\x7d']) = chars at hchars hsplit
  refine ⟨start.locate chars, ofString (start.locate chars) chars.length, ?_⟩
  rw [parse, hchars, hsplit]
  simp only [ofPieces, ofPiece]
  cases expression (start.locate chars) (ofString (start.locate chars) chars.length) 2 source <;>
    rfl

theorem expression_of_readPhrase {locate : Nat → Pos}
    {string : Nat → List Char → Except ParseFailure (Node Owner)} {offset : Nat}
    {source : List Char} {p : Phrase} (hblank : isBlank source = false)
    (h : readPhrase offset source = .ok p) :
    expression locate string offset source = Node.ofPhrase locate string p := by
  rw [expression, hblank, h]
  rfl

theorem Derivation.yield_ne_nil {r : Rule} : (d : Derivation r) → d.yield ≠ []
  | .tighter _ d => d.yield_ne_nil
  | .conditional .. | .binary .. | .index .. => by simp [Derivation.yield]
  | .unary .. | .number .. | .bool .. | .quoted .. | .name .. | .callEmpty .. | .call ..
  | .group .. => List.cons_ne_nil _ _

/-- **Reading undoes printing.**  Every expression can be written, and however it is
written, an interpolation of it is read as the expression, apart from positions. -/
theorem parse_printed {n : Node Owner} (h : n.IsExpression) (start : Pos) :
    (∃ tokens text, PrintedIn .expr n tokens ∧ Spaced tokens text) ∧
    ∀ tokens text, PrintedIn .expr n tokens → Spaced tokens text →
      ∃ m : Node Owner, parse ("$\x7b" ++ String.ofList text ++ "\x7d") start =
        .ok (.output start [m]) ∧ m.unplaced = n.unplaced := by
  constructor
  · obtain ⟨tokens, htokens⟩ := h.exists_printed
    obtain ⟨text, htext⟩ := exists_spaced tokens
    exact ⟨tokens, text, .bare (Nat.zero_le _) htokens, htext⟩
  · intro tokens text hprinted hspaced
    have hreadable := hprinted.readable
    obtain ⟨lexemes, hlexemes, hcut⟩ := hspaced.cut hreadable.plain 2
    obtain ⟨p, hderives, hmeans⟩ := hreadable.derived lexemes hlexemes
    have hread : readPhrase 2 text = .ok p := readPhrase_eq_ok_iff.mpr ⟨lexemes, hcut, hderives⟩
    have hne : tokens ≠ [] := by
      obtain ⟨d, -, rfl⟩ := hderives
      rw [← hlexemes, ne_eq, List.map_eq_nil_iff]
      exact d.yield_ne_nil
    have hchars : ∀ c ∈ text, c ≠ '"' ∧ c ≠ '\x7b' ∧ c ≠ '\x7d' := by
      intro c hc
      rcases hspaced.mem hc with hspace | ⟨token, htoken, hc⟩
      · rcases isSpace_iff.mp hspace with rfl | rfl | rfl | rfl | rfl <;> decide
      · exact ((hreadable.plain token htoken).isPlain c hc).2.2
    obtain ⟨locate, string, hparse⟩ := parse_interpolation (takeCode_plain hchars []) start
    obtain ⟨m, hm, hplace⟩ := hmeans locate string
    refine ⟨m, ?_, hplace⟩
    rw [hparse, expression_of_readPhrase (hspaced.not_blank hreadable.plain hne) hread, hm]
    rfl

/-- The expression `1 - (2 - x)`. -/
def nestedDifference : Node Empty :=
  .binary .zero .subtract (.literal .zero (.int 1))
    (.binary .zero .subtract (.literal .zero (.int 2)) (.access none .zero "x"))

/-- The tokens `1 - ( 2 - x )`. -/
def nestedDifferenceTokens : List Token :=
  [.number ['1'], .operator .subtract, .openParen, .number ['2'], .operator .subtract,
    .name ['x'], .closeParen]

/-- The same tokens in a text of two lines. -/
def nestedDifferenceText : List Char :=
  ['1', ' ', '-', '\n', '(', ' ', '2', ' ', '-', ' ', 'x', ' ', ')']

theorem digit_short (c : Char) : [c].length ≤ Digits.digitLimit :=
  Digits.digitLimit_pos

theorem printed_digit (c : Char) (h : c.isDigit = true) :
    Printed (.literal .zero (.int (Digits.toNat [c])) : Node Owner) [.number [c]] :=
  .int ⟨List.cons_ne_nil _ _, by simpa using h⟩ (digit_short c)

theorem parse_printed_nestedDifference :
    nestedDifference.IsExpression ∧
    PrintedIn .expr nestedDifference nestedDifferenceTokens ∧
    Spaced nestedDifferenceTokens nestedDifferenceText ∧
    ∃ m : Node Empty,
      parse ("$\x7b" ++ String.ofList nestedDifferenceText ++ "\x7d") ⟨"", 1, 1⟩ =
        .ok (.output ⟨"", 1, 1⟩ [m]) ∧ m.unplaced = nestedDifference.unplaced := by
  have hname : IsName "x".toList := ⟨'x', [], [], by decide, by simp, by simp, rfl⟩
  have hword : ¬ IsKeyword "x".toList := by
    rintro (h | h) <;> cases h
  have hexpression : nestedDifference.IsExpression :=
    .binary (.int (digit_short _)) (.binary (.int (digit_short _)) (.access hname hword))
  have hone : Printed (.literal .zero (.int 1) : Node Empty) [.number ['1']] :=
    printed_digit '1' rfl
  have htwo : Printed (.literal .zero (.int 2) : Node Empty) [.number ['2']] :=
    printed_digit '2' rfl
  have hinner : Printed
      (.binary .zero .subtract (.literal .zero (.int 2)) (.access none .zero "x") : Node Empty)
      [.number ['2'], .operator .subtract, .name ['x']] :=
    .binary (.bare (by decide) htwo) (.bare (by decide) (.access hname hword))
  have hprinted : PrintedIn .expr nestedDifference nestedDifferenceTokens :=
    .bare (by decide) (.binary (.bare (by decide) hone) (hinner.parens _))
  have hspaced : Spaced nestedDifferenceTokens nestedDifferenceText := by
    have hlast : Spaced [.closeParen] [')'] := .token (by simp) .done
    exact ((((((hlast.before_space rfl (.name ['x'])).before_space rfl
      (.operator .subtract)).before_space rfl (.number ['2'])).before_space rfl
        .openParen).before_space rfl (.operator .subtract)).before_space rfl (.number ['1']))
  exact ⟨hexpression, hprinted, hspaced, (parse_printed hexpression _).2 _ _ hprinted hspaced⟩

end Interpolation.Template
