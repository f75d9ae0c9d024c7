/-
Phrases: expressions as they are written.

* `Phrase.induction` — to prove something of every phrase, prove it of a phrase from
  what holds of its parts;
* `Phrase.start` — where a phrase begins;
* `Phrase.tokens` — the tokens it is written with.

Design notes: a phrase keeps everything its tokens say, parentheses included: a
phrase whose first part is in parentheses begins at the parenthesis.  String
literals are kept as written; what they mean is settled when the phrase becomes
part of a template.
-/
import Interpolation.Template.Token

namespace Interpolation.Template

/-- An expression as it is written; offsets say where its own tokens begin. -/
inductive Phrase where
  | number (offset : Nat) (digits : List Char)
  | bool (offset : Nat) (b : Bool)
  | quoted (offset : Nat) (body : List Char)
  | name (offset : Nat) (text : List Char)
  | call (offset : Nat) (function : List Char) (arguments : List Phrase)
  | group (offset : Nat) (inner : Phrase)
  | index (target key : Phrase)
  | unary (offset : Nat) (op : UnaryOp) (operand : Phrase)
  | binary (op : BinaryOp) (left right : Phrase)
  | conditional (condition yes no : Phrase)

/-- Induction on phrases, from the parts of a phrase to the phrase. -/
@[induction_eliminator]
theorem Phrase.induction {motive : Phrase → Prop}
    (number : ∀ offset digits, motive (.number offset digits))
    (bool : ∀ offset b, motive (.bool offset b))
    (quoted : ∀ offset body, motive (.quoted offset body))
    (name : ∀ offset text, motive (.name offset text))
    (call : ∀ offset function arguments, (∀ a ∈ arguments, motive a) →
      motive (.call offset function arguments))
    (group : ∀ offset inner, motive inner → motive (.group offset inner))
    (index : ∀ target key, motive target → motive key → motive (.index target key))
    (unary : ∀ offset op operand, motive operand → motive (.unary offset op operand))
    (binary : ∀ op left right, motive left → motive right → motive (.binary op left right))
    (conditional : ∀ condition yes no, motive condition → motive yes → motive no →
      motive (.conditional condition yes no))
    (p : Phrase) : motive p :=
  Phrase.rec (motive_1 := motive) (motive_2 := fun phrases => ∀ a ∈ phrases, motive a)
    number bool quoted name call group index unary binary conditional
    (fun _ h => nomatch h)
    (fun _ _ first rest => List.forall_mem_cons.mpr ⟨first, rest⟩) p

namespace Phrase

/-- Where a phrase begins. -/
def start : Phrase → Nat
  | .number offset _ | .bool offset _ | .quoted offset _ | .name offset _ => offset
  | .call offset _ _ | .group offset _ | .unary offset _ _ => offset
  | .index target _ => target.start
  | .binary _ left _ => left.start
  | .conditional condition _ _ => condition.start

/-- The token of a unary operator. -/
def unaryToken : UnaryOp → Token
  | .negate => .operator .subtract
  | .not => .bang

mutual

/-- The tokens a phrase is written with. -/
def tokens : Phrase → List Token
  | .number _ digits => [.number digits]
  | .bool _ b => [.bool b]
  | .quoted _ body => [.quoted body]
  | .name _ text => [.name text]
  | .call _ function arguments =>
    .name function :: .openParen :: argumentTokens arguments ++ [.closeParen]
  | .group _ inner => .openParen :: inner.tokens ++ [.closeParen]
  | .index target key => target.tokens ++ .openBracket :: key.tokens ++ [.closeBracket]
  | .unary _ op operand => unaryToken op :: operand.tokens
  | .binary op left right => left.tokens ++ .operator op :: right.tokens
  | .conditional condition yes no =>
    condition.tokens ++ .question :: yes.tokens ++ .colon :: no.tokens

/-- The tokens of arguments with the commas between them. -/
def argumentTokens : List Phrase → List Token
  | [] => []
  | [argument] => argument.tokens
  | argument :: rest => argument.tokens ++ .comma :: argumentTokens rest

end

end Phrase

end Interpolation.Template
