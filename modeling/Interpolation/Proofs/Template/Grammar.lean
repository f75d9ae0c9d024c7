/-
The grammar of expressions.

    expr    : or | or "?" expr ":" expr
    or      : and | or "||" and
    and     : compare | and "&&" compare
    compare : sum | sum ("==" | "!=" | "<=" | ">=" | "<" | ">") sum
    sum     : product | sum ("+" | "-") product
    product : unary | product ("*" | "/" | "%") unary
    unary   : indexed | ("-" | "!") unary
    indexed : atom | indexed "[" expr "]"
    atom    : NUMBER | "true" | "false" | STRING | NAME
            | NAME "(" [expr ("," expr)*] ")" | "(" expr ")"

* `Derivation` — how a rule derives tokens, one step of the grammar at a time;
* `Derivation.yield`, `Derivation.tree` — the tokens that are derived, and the tree that a
  derivation stands for;
* `Derivation.tokens_phrase`, `Derivation.erase_phrase` — a derivation is written as a
  phrase with its tokens, which is its tree apart from the parentheses;
* `Derivation.eq_of_phrase` — a derivation can be read off its phrase.

Design notes: every rule but the last has the next tighter one as its first alternative,
and five of them chain operators, so two constructors serve for all of these.  A
derivation keeps the offset of every token, a phrase only that of some.
-/
import Interpolation.Template.Phrase

namespace Interpolation.Template

/-- The rules of the grammar, from the loosest to the tightest. -/
inductive Rule where
  | expr
  | or
  | and
  | compare
  | sum
  | product
  | unary
  | indexed
  | atom
  deriving DecidableEq, Repr

namespace Rule

/-- How tightly what a rule derives is bound. -/
def level : Rule → Nat
  | .expr => 0
  | .or => 1
  | .and => 2
  | .compare => 3
  | .sum => 4
  | .product => 5
  | .unary => 6
  | .indexed => 7
  | .atom => 8

/-- The rule that is next in tightness. -/
def tighter : Rule → Rule
  | .expr => .or
  | .or => .and
  | .and => .compare
  | .compare => .sum
  | .sum => .product
  | .product => .unary
  | .unary => .indexed
  | .indexed | .atom => .atom

theorem level_le (r : Rule) : r.level ≤ 8 := by
  cases r <;> decide

theorem level_injective {r r' : Rule} (h : r.level = r'.level) : r = r' := by
  cases r <;> cases r' <;> first | rfl | cases h

theorem level_tighter {r : Rule} (h : r ≠ .atom) : r.tighter.level = r.level + 1 := by
  cases r with
  | atom => contradiction
  | _ => rfl

end Rule

namespace BinaryOp

/-- The rule with the alternative for an operator. -/
def rule : BinaryOp → Rule
  | .or => .or
  | .and => .and
  | .equal | .notEqual | .less | .lessEqual | .greater | .greaterEqual => .compare
  | .add | .subtract => .sum
  | .multiply | .divide | .modulo => .product

/-- The rule for the left operand of an operator; that of a comparison is no comparison. -/
def leftRule (op : BinaryOp) : Rule :=
  if op.isComparison then op.rule.tighter else op.rule

theorem level_rule (op : BinaryOp) : op.rule.level = op.level := by
  cases op <;> rfl

theorem level_tighter_rule (op : BinaryOp) : op.rule.tighter.level = op.level + 1 := by
  cases op <;> rfl

end BinaryOp

mutual

/-- How a rule derives tokens.  Next to each token stands the offset at which it begins. -/
inductive Derivation : Rule → Type where
  | tighter {r : Rule} (hr : r ≠ .atom) (d : Derivation r.tighter) : Derivation r
  | conditional (condition : Derivation .or) (question : Nat) (yes : Derivation .expr)
    (colon : Nat) (no : Derivation .expr) : Derivation .expr
  | binary {r : Rule} (op : BinaryOp) (hop : op.rule = r) (left : Derivation op.leftRule)
    (offset : Nat) (right : Derivation r.tighter) : Derivation r
  | unary (op : UnaryOp) (offset : Nat) (operand : Derivation .unary) : Derivation .unary
  | index (target : Derivation .indexed) (openBracket : Nat) (key : Derivation .expr)
    (closeBracket : Nat) : Derivation .indexed
  | number (offset : Nat) (digits : List Char) : Derivation .atom
  | bool (offset : Nat) (b : Bool) : Derivation .atom
  | quoted (offset : Nat) (body : List Char) : Derivation .atom
  | name (offset : Nat) (text : List Char) : Derivation .atom
  | callEmpty (offset : Nat) (function : List Char) (openParen closeParen : Nat) :
    Derivation .atom
  | call (offset : Nat) (function : List Char) (openParen : Nat) (arguments : Arguments)
    (closeParen : Nat) : Derivation .atom
  | group (openParen : Nat) (inner : Derivation .expr) (closeParen : Nat) : Derivation .atom

/-- How one or more arguments of a call are derived. -/
inductive Arguments : Type where
  | one (argument : Derivation .expr)
  | more (before : Arguments) (comma : Nat) (last : Derivation .expr)

end

mutual

/-- The tokens that are derived, in order. -/
def Derivation.yield {r : Rule} : Derivation r → List Lexeme
  | .tighter _ d => d.yield
  | .conditional condition question yes colon no =>
    condition.yield ++ ⟨.question, question⟩ :: (yes.yield ++ ⟨.colon, colon⟩ :: no.yield)
  | .binary op _ left offset right => left.yield ++ ⟨.operator op, offset⟩ :: right.yield
  | .unary op offset operand => ⟨Phrase.unaryToken op, offset⟩ :: operand.yield
  | .index target openBracket key closeBracket =>
    target.yield ++ ⟨.openBracket, openBracket⟩ :: (key.yield ++ [⟨.closeBracket, closeBracket⟩])
  | .number offset digits => [⟨.number digits, offset⟩]
  | .bool offset b => [⟨.bool b, offset⟩]
  | .quoted offset body => [⟨.quoted body, offset⟩]
  | .name offset text => [⟨.name text, offset⟩]
  | .callEmpty offset function openParen closeParen =>
    [⟨.name function, offset⟩, ⟨.openParen, openParen⟩, ⟨.closeParen, closeParen⟩]
  | .call offset function openParen arguments closeParen =>
    ⟨.name function, offset⟩ :: ⟨.openParen, openParen⟩ ::
      (arguments.yield ++ [⟨.closeParen, closeParen⟩])
  | .group openParen inner closeParen =>
    ⟨.openParen, openParen⟩ :: (inner.yield ++ [⟨.closeParen, closeParen⟩])

/-- The tokens of arguments with the commas between them. -/
def Arguments.yield : Arguments → List Lexeme
  | .one argument => argument.yield
  | .more before comma last => before.yield ++ ⟨.comma, comma⟩ :: last.yield

end

mutual

/-- What is derived, as it is written. -/
def Derivation.phrase {r : Rule} : Derivation r → Phrase
  | .tighter _ d => d.phrase
  | .conditional condition _ yes _ no => .conditional condition.phrase yes.phrase no.phrase
  | .binary op _ left _ right => .binary op left.phrase right.phrase
  | .unary op offset operand => .unary offset op operand.phrase
  | .index target _ key _ => .index target.phrase key.phrase
  | .number offset digits => .number offset digits
  | .bool offset b => .bool offset b
  | .quoted offset body => .quoted offset body
  | .name offset text => .name offset text
  | .callEmpty offset function _ _ => .call offset function []
  | .call offset function _ arguments _ => .call offset function arguments.phrases
  | .group openParen inner _ => .group openParen inner.phrase

/-- The arguments that are derived, as they are written. -/
def Arguments.phrases : Arguments → List Phrase
  | .one argument => [argument.phrase]
  | .more before _ last => before.phrases ++ [last.phrase]

end

mutual

/-- The tree a derivation stands for: a rule that only passes on to the next leaves no
trace in it, and neither do parentheses. -/
def Derivation.tree {r : Rule} : Derivation r → Phrase
  | .tighter _ d => d.tree
  | .conditional condition _ yes _ no => .conditional condition.tree yes.tree no.tree
  | .binary op _ left _ right => .binary op left.tree right.tree
  | .unary op offset operand => .unary offset op operand.tree
  | .index target _ key _ => .index target.tree key.tree
  | .number offset digits => .number offset digits
  | .bool offset b => .bool offset b
  | .quoted offset body => .quoted offset body
  | .name offset text => .name offset text
  | .callEmpty offset function _ _ => .call offset function []
  | .call offset function _ arguments _ => .call offset function arguments.trees
  | .group _ inner _ => inner.tree

/-- The trees that arguments stand for. -/
def Arguments.trees : Arguments → List Phrase
  | .one argument => [argument.tree]
  | .more before _ last => before.trees ++ [last.tree]

end

namespace Phrase

mutual

/-- A phrase without the parentheses around its parts. -/
def erase : Phrase → Phrase
  | .number offset digits => .number offset digits
  | .bool offset b => .bool offset b
  | .quoted offset body => .quoted offset body
  | .name offset text => .name offset text
  | .call offset function arguments => .call offset function (eraseAll arguments)
  | .group _ inner => inner.erase
  | .index target key => .index target.erase key.erase
  | .unary offset op operand => .unary offset op operand.erase
  | .binary op left right => .binary op left.erase right.erase
  | .conditional condition yes no => .conditional condition.erase yes.erase no.erase

def eraseAll : List Phrase → List Phrase
  | [] => []
  | argument :: rest => argument.erase :: eraseAll rest

end

/-- How tightly a phrase is bound. -/
def level : Phrase → Nat
  | .conditional .. => 0
  | .binary op _ _ => op.level
  | .unary .. => 6
  | .index .. => 7
  | _ => 8

theorem eraseAll_eq_map (arguments : List Phrase) :
    eraseAll arguments = arguments.map erase := by
  induction arguments with
  | nil => rw [eraseAll, List.map_nil]
  | cons argument rest ih => rw [eraseAll, List.map_cons, ih]

theorem argumentTokens_concat {arguments : List Phrase} (hne : arguments ≠ []) (last : Phrase) :
    argumentTokens (arguments ++ [last]) =
      argumentTokens arguments ++ .comma :: last.tokens := by
  induction arguments with
  | nil => contradiction
  | cons argument rest ih =>
    cases rest with
    | nil => simp [argumentTokens]
    | cons second rest =>
      have ih := ih (List.cons_ne_nil _ _)
      rw [List.cons_append] at ih
      simp [argumentTokens, ih]

end Phrase

/-! ### What a derivation is written with -/

theorem Arguments.phrases_ne_nil (arguments : Arguments) : arguments.phrases ≠ [] := by
  cases arguments <;> simp [Arguments.phrases]

mutual

/-- No token is dropped or added, and the order is kept. -/
theorem Derivation.tokens_phrase {r : Rule} :
    (d : Derivation r) → d.phrase.tokens = d.yield.map Lexeme.token
  | .tighter _ d => by
    simpa only [Derivation.phrase, Derivation.yield] using d.tokens_phrase
  | .conditional condition _ yes _ no => by
    simp [Derivation.phrase, Derivation.yield, Phrase.tokens, condition.tokens_phrase,
      yes.tokens_phrase, no.tokens_phrase]
  | .binary op _ left _ right => by
    simp [Derivation.phrase, Derivation.yield, Phrase.tokens, left.tokens_phrase,
      right.tokens_phrase]
  | .unary op _ operand => by
    simp [Derivation.phrase, Derivation.yield, Phrase.tokens, operand.tokens_phrase]
  | .index target _ key _ => by
    simp [Derivation.phrase, Derivation.yield, Phrase.tokens, target.tokens_phrase,
      key.tokens_phrase]
  | .number .. | .bool .. | .quoted .. | .name .. => rfl
  | .callEmpty .. => by
    simp [Derivation.phrase, Derivation.yield, Phrase.tokens, Phrase.argumentTokens]
  | .call _ _ _ arguments _ => by
    simp [Derivation.phrase, Derivation.yield, Phrase.tokens, arguments.tokens_phrases]
  | .group _ inner _ => by
    simp [Derivation.phrase, Derivation.yield, Phrase.tokens, inner.tokens_phrase]

theorem Arguments.tokens_phrases :
    (arguments : Arguments) →
      Phrase.argumentTokens arguments.phrases = arguments.yield.map Lexeme.token
  | .one argument => by
    simp [Arguments.phrases, Arguments.yield, Phrase.argumentTokens, argument.tokens_phrase]
  | .more before _ last => by
    simp [Arguments.phrases, Arguments.yield,
      Phrase.argumentTokens_concat before.phrases_ne_nil, before.tokens_phrases,
      last.tokens_phrase]

end

mutual

/-- Apart from the parentheses a phrase is the tree its derivation stands for. -/
theorem Derivation.erase_phrase {r : Rule} : (d : Derivation r) → d.phrase.erase = d.tree
  | .tighter _ d => d.erase_phrase
  | .conditional condition _ yes _ no => by
    rw [Derivation.phrase, Phrase.erase, condition.erase_phrase, yes.erase_phrase,
      no.erase_phrase, Derivation.tree]
  | .binary op _ left _ right => by
    rw [Derivation.phrase, Phrase.erase, left.erase_phrase, right.erase_phrase, Derivation.tree]
  | .unary op _ operand => by
    rw [Derivation.phrase, Phrase.erase, operand.erase_phrase, Derivation.tree]
  | .index target _ key _ => by
    rw [Derivation.phrase, Phrase.erase, target.erase_phrase, key.erase_phrase, Derivation.tree]
  | .number .. | .bool .. | .quoted .. | .name .. | .callEmpty .. => rfl
  | .call _ _ _ arguments _ => by
    rw [Derivation.phrase, Phrase.erase, arguments.erase_phrases, Derivation.tree]
  | .group _ inner _ => inner.erase_phrase

theorem Arguments.erase_phrases :
    (arguments : Arguments) → Phrase.eraseAll arguments.phrases = arguments.trees
  | .one argument => by
    rw [Arguments.phrases, Phrase.eraseAll, argument.erase_phrase, Phrase.eraseAll,
      Arguments.trees]
  | .more before _ last => by
    have ih := before.erase_phrases
    rw [Phrase.eraseAll_eq_map] at ih
    rw [Arguments.phrases, Phrase.eraseAll_eq_map, List.map_append, ih, List.map_singleton,
      last.erase_phrase, Arguments.trees]

end

/-! ### Derivations with the same phrase -/

/-- What a rule derives is bound at least as tightly as the rule. -/
theorem Derivation.level_le {r : Rule} : (d : Derivation r) → r.level ≤ d.phrase.level
  | .tighter hr d => by
    have ih := d.level_le
    rw [Rule.level_tighter hr] at ih
    rw [Derivation.phrase]
    omega
  | .binary op hop _ _ _ => by
    subst hop
    exact Nat.le_of_eq op.level_rule
  | .conditional .. | .unary .. | .index .. | .number .. | .bool .. | .quoted .. | .name ..
  | .callEmpty .. | .call .. | .group .. => Nat.le_refl _

/-- What the next tighter rule derives is not what an alternative of the rule itself
derives. -/
theorem Derivation.phrase_ne {r : Rule} (hr : r ≠ .atom) (d : Derivation r.tighter) {p : Phrase}
    (hp : p.level ≤ r.level) : d.phrase ≠ p := by
  rintro rfl
  have hle := d.level_le
  rw [Rule.level_tighter hr] at hle
  omega

/-- The same phrase at the front takes up as much of both texts. -/
theorem Derivation.yield_inj {r r' : Rule} {d : Derivation r} {d' : Derivation r'}
    (hphrase : d.phrase = d'.phrase) {rest rest' : List Lexeme}
    (h : d.yield ++ rest = d'.yield ++ rest') : d.yield = d'.yield ∧ rest = rest' := by
  refine List.append_inj h ?_
  have htokens : d.yield.map Lexeme.token = d'.yield.map Lexeme.token := by
    rw [← d.tokens_phrase, ← d'.tokens_phrase, hphrase]
  simpa using congrArg List.length htokens

theorem Arguments.yield_inj {a a' : Arguments} (hphrases : a.phrases = a'.phrases)
    {rest rest' : List Lexeme} (h : a.yield ++ rest = a'.yield ++ rest') :
    a.yield = a'.yield ∧ rest = rest' := by
  refine List.append_inj h ?_
  have htokens : a.yield.map Lexeme.token = a'.yield.map Lexeme.token := by
    rw [← a.tokens_phrases, ← a'.tokens_phrases, hphrases]
  simpa using congrArg List.length htokens

mutual

/-- **A derivation can be read off its phrase and its tokens.** -/
theorem Derivation.eq_of_phrase {r : Rule} : (d d' : Derivation r) → d.phrase = d'.phrase →
    d.yield = d'.yield → d = d'
  -- the phrase tells which alternative was taken (`phrase_ne`), and the phrases of the parts
  -- tell where the tokens of one end and those of the next begin (`yield_inj`)
  | .tighter hr d, d', hphrase, hyield => by
    cases d' with
    | tighter _ d' => rw [d.eq_of_phrase d' hphrase hyield]
    | binary op hop =>
      exact absurd hphrase (d.phrase_ne hr (Nat.le_of_eq (hop ▸ op.level_rule.symm)))
    | _ => exact absurd hphrase (d.phrase_ne hr (Nat.le_refl _))
  | .conditional c q y k n, d', hphrase, hyield => by
    cases d' with
    | tighter hr d' => exact absurd hphrase.symm (d'.phrase_ne hr (Nat.le_refl _))
    | binary op hop => cases op <;> cases hop
    | conditional c' q' y' k' n' =>
      simp only [Derivation.phrase, Phrase.conditional.injEq] at hphrase
      obtain ⟨hc, hy, hn⟩ := hphrase
      obtain ⟨hcy, hrest⟩ := Derivation.yield_inj hc hyield
      obtain ⟨hq, hrest⟩ := List.cons.inj hrest
      obtain ⟨hyy, hrest⟩ := Derivation.yield_inj hy hrest
      obtain ⟨hk, hny⟩ := List.cons.inj hrest
      cases hq
      cases hk
      rw [c.eq_of_phrase c' hc hcy, y.eq_of_phrase y' hy hyy, n.eq_of_phrase n' hn hny]
  | .binary op hop l o m, d', hphrase, hyield => by
    cases d' with
    | tighter hr d' =>
      exact absurd hphrase.symm (d'.phrase_ne hr (Nat.le_of_eq (hop ▸ op.level_rule.symm)))
    | binary op' hop' l' o' m' =>
      simp only [Derivation.phrase, Phrase.binary.injEq] at hphrase
      obtain ⟨rfl, hl, hm⟩ := hphrase
      obtain ⟨hly, hrest⟩ := Derivation.yield_inj hl hyield
      obtain ⟨ho, hmy⟩ := List.cons.inj hrest
      cases ho
      rw [l.eq_of_phrase l' hl hly, m.eq_of_phrase m' hm hmy]
    | _ => cases hphrase
  | .unary op o d, d', hphrase, hyield => by
    cases d' with
    | tighter hr d' => exact absurd hphrase.symm (d'.phrase_ne hr (Nat.le_refl _))
    | binary op hop => cases op <;> cases hop
    | unary op' o' d' =>
      simp only [Derivation.phrase, Phrase.unary.injEq] at hphrase
      obtain ⟨rfl, rfl, hd⟩ := hphrase
      rw [d.eq_of_phrase d' hd (List.cons.inj hyield).2]
  | .index t o k c, d', hphrase, hyield => by
    cases d' with
    | tighter hr d' => exact absurd hphrase.symm (d'.phrase_ne hr (Nat.le_refl _))
    | binary op hop => cases op <;> cases hop
    | index t' o' k' c' =>
      simp only [Derivation.phrase, Phrase.index.injEq] at hphrase
      obtain ⟨ht, hk⟩ := hphrase
      obtain ⟨hty, hrest⟩ := Derivation.yield_inj ht hyield
      obtain ⟨ho, hrest⟩ := List.cons.inj hrest
      obtain ⟨hky, hlast⟩ := Derivation.yield_inj hk hrest
      cases ho
      cases hlast
      rw [t.eq_of_phrase t' ht hty, k.eq_of_phrase k' hk hky]
  | .number o ds, d', hphrase, _ => by
    cases d' with
    | tighter hr => exact absurd rfl hr
    | number => cases hphrase; rfl
    | _ => cases hphrase
  | .bool o b, d', hphrase, _ => by
    cases d' with
    | tighter hr => exact absurd rfl hr
    | bool => cases hphrase; rfl
    | _ => cases hphrase
  | .quoted o body, d', hphrase, _ => by
    cases d' with
    | tighter hr => exact absurd rfl hr
    | quoted => cases hphrase; rfl
    | _ => cases hphrase
  | .name o text, d', hphrase, _ => by
    cases d' with
    | tighter hr => exact absurd rfl hr
    | name => cases hphrase; rfl
    | _ => cases hphrase
  | .callEmpty o f p c, d', hphrase, hyield => by
    cases d' with
    | tighter hr => exact absurd rfl hr
    | callEmpty => cases hyield; rfl
    | call _ _ _ arguments =>
      simp only [Derivation.phrase, Phrase.call.injEq] at hphrase
      exact absurd hphrase.2.2.symm arguments.phrases_ne_nil
    | _ => cases hphrase
  | .call o f p a c, d', hphrase, hyield => by
    cases d' with
    | tighter hr => exact absurd rfl hr
    | callEmpty =>
      simp only [Derivation.phrase, Phrase.call.injEq] at hphrase
      exact absurd hphrase.2.2 a.phrases_ne_nil
    | call o' f' p' a' c' =>
      simp only [Derivation.phrase, Phrase.call.injEq] at hphrase
      obtain ⟨rfl, rfl, ha⟩ := hphrase
      obtain ⟨hp, hrest⟩ := List.cons.inj (List.cons.inj hyield).2
      obtain ⟨hay, hlast⟩ := Arguments.yield_inj ha hrest
      cases hp
      cases hlast
      rw [a.eq_of_phrases a' ha hay]
    | _ => cases hphrase
  | .group p d c, d', hphrase, hyield => by
    cases d' with
    | tighter hr => exact absurd rfl hr
    | group p' d' c' =>
      simp only [Derivation.phrase, Phrase.group.injEq] at hphrase
      obtain ⟨rfl, hd⟩ := hphrase
      obtain ⟨hdy, hlast⟩ := Derivation.yield_inj hd (List.cons.inj hyield).2
      cases hlast
      rw [d.eq_of_phrase d' hd hdy]
    | _ => cases hphrase

theorem Arguments.eq_of_phrases : (a a' : Arguments) → a.phrases = a'.phrases →
    a.yield = a'.yield → a = a'
  | .one d, a', hphrases, hyield => by
    cases a' with
    | one d' =>
      simp only [Arguments.phrases, List.cons.injEq, and_true] at hphrases
      rw [d.eq_of_phrase d' hphrases hyield]
    | more b' k' d' =>
      have happend : [] ++ [d.phrase] = b'.phrases ++ [d'.phrase] := hphrases
      exact absurd (List.append_inj' happend rfl).1.symm b'.phrases_ne_nil
  | .more b k d, a', hphrases, hyield => by
    cases a' with
    | one d' =>
      have happend : b.phrases ++ [d.phrase] = [] ++ [d'.phrase] := hphrases
      exact absurd (List.append_inj' happend rfl).1 b.phrases_ne_nil
    | more b' k' d' =>
      simp only [Arguments.phrases] at hphrases
      obtain ⟨hb, hd⟩ := List.append_inj' hphrases rfl
      obtain ⟨hby, hrest⟩ := Arguments.yield_inj hb hyield
      obtain ⟨hk, hdy⟩ := List.cons.inj hrest
      cases hk
      rw [b.eq_of_phrases b' hb hby, d.eq_of_phrase d' (List.cons.inj hd).1 hdy]

end

end Interpolation.Template
