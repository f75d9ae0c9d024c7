/-
Extended grapheme clusters: what a reader takes for one character.

* `clusters_flatten` — cutting a text into clusters loses nothing;
* `count_take_le` — a beginning of a text has no more clusters than the text.

Design notes: whether a cluster ends before a character depends on that
character and on what precedes it, never on what follows.  `Before` keeps the
part of the preceding text that the rules look at: the role of the character
just before, whether a pictograph with its marks leads up to it, and whether an
odd number of regional indicators does.  Conjunct consonants of Indic scripts
are not kept together.
-/
import Interpolation.Text.Grapheme.Table

namespace Interpolation.Grapheme

/-- The role a character plays in cluster formation. -/
inductive Role where
  | carriageReturn
  | lineFeed
  | control
  | extender
  | joiner
  | spacingMark
  | prepend
  | regional
  | leading
  | vowel
  | trailing
  /-- A Hangul syllable block that ends in a vowel. -/
  | openSyllable
  /-- A Hangul syllable block that ends in a consonant. -/
  | closedSyllable
  | pictograph
  | other
  deriving DecidableEq, Repr

/-- The role of a code point among the Hangul syllable blocks: every
twenty-eighth block has no trailing consonant. -/
def syllableRole (n : Nat) : Role :=
  if (n - 0xAC00) % 28 = 0 then .openSyllable else .closedSyllable

/-- The role of a character. -/
def role (c : Char) : Role :=
  if c = '\r' then .carriageReturn
  else if c = '\n' then .lineFeed
  else if c.toNat < 0x7F then (if c.toNat < 0x20 then .control else .other)
  else if c = '\u200D' then .joiner
  else if controls.contains c then .control
  else if extenders.contains c then .extender
  else if spacingMarks.contains c then .spacingMark
  else if prepends.contains c then .prepend
  else if 0x1F1E6 ≤ c.toNat && c.toNat ≤ 0x1F1FF then .regional
  else if leadingJamo.contains c then .leading
  else if vowelJamo.contains c then .vowel
  else if trailingJamo.contains c then .trailing
  else if 0xAC00 ≤ c.toNat && c.toNat ≤ 0xD7A3 then syllableRole c.toNat
  else if pictographic.contains c then .pictograph
  else .other

/-- How far a pictograph sequence has come. -/
inductive Picture where
  | none
  /-- A pictograph and any number of marks. -/
  | open
  /-- The same, with a joiner at its end. -/
  | joined
  deriving DecidableEq, Repr

/-- What the rules need to know about the text before a character. -/
structure Before where
  role : Role
  picture : Picture
  oddRegional : Bool
  deriving DecidableEq, Repr

/-- What precedes the second character of a text. -/
def Before.ofFirst (r : Role) : Before :=
  { role := r
    picture := if r = .pictograph then .open else .none
    oddRegional := r = .regional }

/-- What precedes the next character once one of the given role has been read. -/
def Before.push (b : Before) (r : Role) : Before :=
  { role := r
    picture :=
      match r, b.picture with
      | .pictograph, _ => .open
      | .extender, .open => .open
      | .joiner, .open => .joined
      | _, _ => .none
    oddRegional := r = .regional && !b.oddRegional }

/-- Whether a character of role `r` stays in the cluster of the text before it. -/
def joins (b : Before) (r : Role) : Bool :=
  match b.role, r with
  | .carriageReturn, .lineFeed => true
  | .carriageReturn, _ | .lineFeed, _ | .control, _ => false
  | _, .carriageReturn | _, .lineFeed | _, .control => false
  | .leading, .leading | .leading, .vowel => true
  | .leading, .openSyllable | .leading, .closedSyllable => true
  | .openSyllable, .vowel | .openSyllable, .trailing => true
  | .vowel, .vowel | .vowel, .trailing => true
  | .closedSyllable, .trailing | .trailing, .trailing => true
  | _, .extender | _, .joiner | _, .spacingMark => true
  | .prepend, _ => true
  | .joiner, .pictograph => b.picture = .joined
  | .regional, .regional => b.oddRegional
  | _, _ => false

/-- The clusters of the rest of a text whose current cluster is `current`. -/
def clustersAfter (b : Before) (current : List Char) : List Char → List (List Char)
  | [] => [current]
  | c :: cs =>
    if joins b (role c) then clustersAfter (b.push (role c)) (current ++ [c]) cs
    else current :: clustersAfter (b.push (role c)) [c] cs

/-- The clusters of a text, in order. -/
def clusters : List Char → List (List Char)
  | [] => []
  | c :: cs => clustersAfter (.ofFirst (role c)) [c] cs

/-- Number of clusters that begin in the rest of a text. -/
def startsAfter (b : Before) : List Char → Nat
  | [] => 0
  | c :: cs => (if joins b (role c) then 0 else 1) + startsAfter (b.push (role c)) cs

/-- Number of clusters of a text. -/
def count : List Char → Nat
  | [] => 0
  | c :: cs => 1 + startsAfter (.ofFirst (role c)) cs

theorem clustersAfter_flatten (b : Before) (current cs : List Char) :
    (clustersAfter b current cs).flatten = current ++ cs := by
  fun_induction clustersAfter b current cs with
  | case1 => simp
  | case2 b current c cs h ih => simp [ih]
  | case3 b current c cs h ih => simp [ih]

theorem clusters_flatten (cs : List Char) : (clusters cs).flatten = cs := by
  cases cs with
  | nil => rfl
  | cons c cs => simp [clusters, clustersAfter_flatten]

theorem clustersAfter_length (b : Before) (current cs : List Char) :
    (clustersAfter b current cs).length = 1 + startsAfter b cs := by
  fun_induction clustersAfter b current cs with
  | case1 => simp [startsAfter]
  | case2 b current c cs h ih => simp [startsAfter, ih, h]
  | case3 b current c cs h ih => simp [startsAfter, ih, h]; omega

/-- The two ways to count agree. -/
theorem clusters_length (cs : List Char) : (clusters cs).length = count cs := by
  cases cs with
  | nil => rfl
  | cons c cs => simp [clusters, count, clustersAfter_length]

theorem startsAfter_take_le (b : Before) (cs : List Char) (n : Nat) :
    startsAfter b (cs.take n) ≤ startsAfter b cs := by
  induction cs generalizing b n with
  | nil => simp
  | cons c cs ih =>
    cases n with
    | zero => simp [startsAfter]
    | succ n => simp only [List.take_succ_cons, startsAfter]; exact Nat.add_le_add_left (ih _ _) _

theorem count_take_le (cs : List Char) (n : Nat) : count (cs.take n) ≤ count cs := by
  cases cs with
  | nil => simp
  | cons c cs =>
    cases n with
    | zero => simp [count]
    | succ n => simpa [count] using startsAfter_take_le _ cs n

end Interpolation.Grapheme
