/-
Cutting an expression into tokens.

* `readToken_text` — reading a token loses nothing: its text and the rest make
  up the input;
* `readToken_length` — every token takes at least one character.

Design notes: the longest token wins, so among the tokens with a fixed spelling
those of two characters are tried first.  White space between tokens is skipped.
Lexing stops at the first character that begins no token; whether that is an
error is for the reader of the tokens to say, who may meet another one earlier.
-/
import Interpolation.Template.Token

namespace Interpolation.Template.Lexer

/-- White space between tokens. -/
def isSpace (c : Char) : Bool :=
  c = ' ' || c = '\t' || c = '\x0c' || c = '\r' || c = '\n'

/-- Characters a name may begin with. -/
def startsName (c : Char) : Bool :=
  c.isAlpha || c = '_'

/-- Characters that continue a segment of a name. -/
def continuesName (c : Char) : Bool :=
  c.isAlphanum || c = '_' || c = '-'

/-- The rest of a number after its first digits: a point with digits behind it. -/
def readFraction : List Char → List Char × List Char
  | '.' :: d :: cs =>
    if d.isDigit then ('.' :: d :: cs.takeWhile Char.isDigit, cs.dropWhile Char.isDigit)
    else ([], '.' :: d :: cs)
  | cs => ([], cs)

/-- The rest of a name after its first segment: any number of dots, each followed
by a segment or by a star. -/
def readSegments : List Char → List Char × List Char
  | '.' :: c :: cs =>
    if c = '*' then
      let more := readSegments cs
      ('.' :: '*' :: more.1, more.2)
    else if continuesName c then
      let more := readSegments (cs.dropWhile continuesName)
      ('.' :: c :: cs.takeWhile continuesName ++ more.1, more.2)
    else ([], '.' :: c :: cs)
  | cs => ([], cs)
termination_by cs => cs.length
decreasing_by
  · simp only [List.length_cons]; omega
  · have := (List.dropWhile_sublist (l := cs) continuesName).length_le
    simp only [List.length_cons]; omega

/-- The body of a string literal, up to its closing quote.  A backslash takes the
next character with it, but never a line feed. -/
def readQuoted : List Char → Option (List Char × List Char)
  | [] => none
  | '"' :: cs => some ([], cs)
  | '\\' :: c :: cs =>
    if c = '\n' then none
    else (readQuoted cs).map fun r => ('\\' :: c :: r.1, r.2)
  | ['\\'] => none
  | c :: cs => (readQuoted cs).map fun r => (c :: r.1, r.2)

/-- What follows a given beginning of a text. -/
def behind? : List Char → List Char → Option (List Char)
  | [], cs => some cs
  | _ :: _, [] => none
  | m :: ms, c :: cs => if m = c then behind? ms cs else none

/-- The tokens with a fixed spelling, those of two characters first. -/
def marks : List Token := [
  .operator .or, .operator .and, .operator .equal, .operator .lessEqual,
  .operator .greaterEqual, .operator .less, .operator .greater, .operator .add,
  .operator .subtract, .operator .multiply, .operator .divide, .operator .modulo, .bang,
  .question, .colon, .comma, .openParen, .closeParen, .openBracket, .closeBracket]

/-- The tokens with a fixed spelling that can be found where something is due. -/
def marksFor : Due → List Token
  | .operand => marks
  | .operator => .operator .notEqual :: marks

/-- The token with a fixed spelling at the front of a text, and what follows it. -/
def readMark (due : Due) (cs : List Char) : Option (Token × List Char) :=
  (marksFor due).findSome? fun token => (behind? token.text cs).map fun rest => (token, rest)

/-- The token at the front of a text, and what follows it. -/
def readToken (due : Due) : List Char → Option (Token × List Char)
  | [] => none
  | c :: cs =>
    if c = '"' then (readQuoted cs).map fun q => (.quoted q.1, q.2)
    else if c.isDigit then
      let fraction := readFraction (cs.dropWhile Char.isDigit)
      some (.number (c :: cs.takeWhile Char.isDigit ++ fraction.1), fraction.2)
    else if startsName c then
      let segments := readSegments (cs.dropWhile continuesName)
      some (.ofWord (c :: cs.takeWhile continuesName ++ segments.1), segments.2)
    else readMark due (c :: cs)

theorem readFraction_append (cs : List Char) :
    (readFraction cs).1 ++ (readFraction cs).2 = cs := by
  unfold readFraction
  split
  · split
    · simp
    · rfl
  · rfl

theorem readSegments_append (cs : List Char) :
    (readSegments cs).1 ++ (readSegments cs).2 = cs := by
  fun_induction readSegments cs with
  | case1 cs more ih => simpa [more] using ih
  | case2 c cs _ _ more ih => simp [more, ih]
  | case3 => rfl
  | case4 => rfl

theorem readQuoted_append {cs body rest : List Char} (h : readQuoted cs = some (body, rest)) :
    body ++ '"' :: rest = cs := by
  fun_induction readQuoted cs generalizing body rest with
  | case1 => cases h
  | case2 cs => cases h; rfl
  | case3 => cases h
  | case4 c cs hc ih =>
    obtain ⟨r, hr, heq⟩ := Option.map_eq_some_iff.mp h
    cases heq
    simp [ih hr]
  | case5 => cases h
  | case6 c cs _ _ _ ih =>
    obtain ⟨r, hr, heq⟩ := Option.map_eq_some_iff.mp h
    cases heq
    simp [ih hr]

theorem behind?_append {ms cs rest : List Char} (h : behind? ms cs = some rest) :
    ms ++ rest = cs := by
  induction ms generalizing cs with
  | nil => exact Option.some.inj h.symm
  | cons m ms ih =>
    cases cs with
    | nil => cases h
    | cons c cs =>
      rw [behind?] at h
      split at h
      · next hm => rw [hm, List.cons_append, ih h]
      · cases h

theorem text_ne_nil_of_mem_marksFor {due : Due} {token : Token} (h : token ∈ marksFor due) :
    token.text ≠ [] := by
  have hall : ∀ t ∈ Token.operator .notEqual :: marks, t.text ≠ [] := by decide
  cases due with
  | operand => exact hall token (List.mem_cons_of_mem _ h)
  | operator => exact hall token h

theorem readMark_eq_some {due : Due} {cs : List Char} {token : Token} {rest : List Char}
    (h : readMark due cs = some (token, rest)) :
    token ∈ marksFor due ∧ token.text ++ rest = cs := by
  obtain ⟨mark, hmem, hmark⟩ := List.exists_of_findSome?_eq_some h
  obtain ⟨left, hleft, heq⟩ := Option.map_eq_some_iff.mp hmark
  cases heq
  exact ⟨hmem, behind?_append hleft⟩

theorem readToken_text {due : Due} {cs : List Char} {token : Token} {rest : List Char}
    (h : readToken due cs = some (token, rest)) : token.text ++ rest = cs := by
  cases cs with
  | nil => cases h
  | cons c cs =>
    rw [readToken] at h
    split at h
    · next hc =>
      obtain ⟨q, hq, heq⟩ := Option.map_eq_some_iff.mp h
      cases heq
      simp [Token.text, readQuoted_append hq, hc]
    · split at h
      · cases h
        simp [Token.text, readFraction_append]
      · split at h
        · cases h
          simp [Token.text_ofWord, readSegments_append]
        · exact (readMark_eq_some h).2

theorem text_ne_nil_of_readToken {due : Due} {cs : List Char} {token : Token}
    {rest : List Char} (h : readToken due cs = some (token, rest)) : token.text ≠ [] := by
  cases cs with
  | nil => cases h
  | cons c cs =>
    rw [readToken] at h
    split at h
    · obtain ⟨q, hq, heq⟩ := Option.map_eq_some_iff.mp h
      cases heq
      simp [Token.text]
    · split at h
      · cases h
        simp [Token.text]
      · split at h
        · cases h
          simp [Token.text_ofWord]
        · exact text_ne_nil_of_mem_marksFor (readMark_eq_some h).1

theorem readToken_length {due : Due} {cs : List Char} {token : Token} {rest : List Char}
    (h : readToken due cs = some (token, rest)) : rest.length < cs.length := by
  have hne := text_ne_nil_of_readToken h
  have hpos := List.length_pos_iff.mpr hne
  rw [← readToken_text h, List.length_append]
  omega

/-- The tokens of an expression, and the character that ends them if no token
begins there. -/
structure Lexed where
  lexemes : List Lexeme
  stuck : Option (Char × Nat)
  deriving DecidableEq, Repr

/-- Cuts the text at an offset into tokens. -/
def tokens (due : Due) (offset : Nat) : List Char → Lexed
  | [] => ⟨[], none⟩
  | c :: cs =>
    if isSpace c then tokens due (offset + 1) cs
    else
      match _h : readToken due (c :: cs) with
      | none => ⟨[], some (c, offset)⟩
      | some (token, rest) =>
        let more := tokens token.leads (offset + token.text.length) rest
        ⟨⟨token, offset⟩ :: more.lexemes, more.stuck⟩
termination_by cs => cs.length
decreasing_by
  · simp
  · exact readToken_length _h

end Interpolation.Template.Lexer
