/-
Text shown in quotes, as messages show it.

* `quote_plain` — a text of printable characters without quotes or backslashes
  is put between apostrophes and otherwise left as it is.

Design notes: apostrophes enclose the text unless it holds an apostrophe and no
double quote.  Only the enclosing quote and the backslash are escaped by a
backslash; line feed, carriage return and tab have short escapes and every other
unprintable character is given by its code point in two, four or eight
hexadecimal digits.
-/
import Interpolation.Text.Printable

namespace Interpolation.Quoted

/-- The lower-case hexadecimal digits of a number, at least `width` of them. -/
def hex (width n : Nat) : List Char :=
  let digits := Nat.toDigits 16 n
  List.replicate (width - digits.length) '0' ++ digits

/-- The quote that encloses a text. -/
def delimiter (cs : List Char) : Char :=
  if cs.contains '\'' && !cs.contains '"' then '"' else '\''

/-- One character inside quotes. -/
def escape (delim c : Char) : List Char :=
  if c = delim || c = '\\' then ['\\', c]
  else if c = '\n' then ['\\', 'n']
  else if c = '\r' then ['\\', 'r']
  else if c = '\t' then ['\\', 't']
  else if printable.contains c then [c]
  else if c.toNat < 0x100 then '\\' :: 'x' :: hex 2 c.toNat
  else if c.toNat < 0x10000 then '\\' :: 'u' :: hex 4 c.toNat
  else '\\' :: 'U' :: hex 8 c.toNat

/-- The quoted form of a text. -/
def quoteChars (cs : List Char) : List Char :=
  let delim := delimiter cs
  delim :: cs.flatMap (escape delim) ++ [delim]

/-- The quoted form of a string. -/
def quote (s : String) : String :=
  String.ofList (quoteChars s.toList)

theorem flatMap_escape_plain {cs : List Char}
    (h : ∀ c ∈ cs, printable.contains c = true ∧ c ≠ '\'' ∧ c ≠ '\\') :
    (∀ c ∈ cs, c ≠ '\n' ∧ c ≠ '\r' ∧ c ≠ '\t') → cs.flatMap (escape '\'') = cs := by
  intro hs
  induction cs with
  | nil => rfl
  | cons c cs ih =>
    obtain ⟨⟨hp, hq, hb⟩, hrest⟩ := List.forall_mem_cons.mp h
    obtain ⟨⟨hn, hr, ht⟩, hsrest⟩ := List.forall_mem_cons.mp hs
    simp [escape, hp, hq, hb, hn, hr, ht, ih hrest hsrest]

theorem quote_plain {cs : List Char}
    (h : ∀ c ∈ cs, printable.contains c = true ∧ c ≠ '\'' ∧ c ≠ '\\')
    (hs : ∀ c ∈ cs, c ≠ '\n' ∧ c ≠ '\r' ∧ c ≠ '\t') :
    quoteChars cs = '\'' :: cs ++ ['\''] := by
  have hd : delimiter cs = '\'' := by
    have : '\'' ∉ cs := fun hc => (h _ hc).2.1 rfl
    simp [delimiter, this]
  simp [quoteChars, hd, flatMap_escape_plain h hs]

end Interpolation.Quoted
