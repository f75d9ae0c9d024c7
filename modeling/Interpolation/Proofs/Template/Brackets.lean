/-
Names with keys in brackets.

* `Cut.closes` — the brace behind a source that is cut into tokens closes its interpolation;
* `parse_of_closes`, `parse_of_readPhrase` — an interpolation is read as its expression, and
  one of a phrase as the node of the phrase;
* `parse_bracketed` — a name with keys in brackets is read as a chain of look-ups.

Design notes: no white space stands between the tokens of these sources, so the name ends at
the first bracket because no bracket continues a name.  The keys are string literals whose
bodies are text alone, which leaves nothing to be read in them.  A look-up is derived from the
left: what has been read up to a bracket is the target of the next key.
-/
import Interpolation.Proofs.Template.Quoting

namespace Interpolation.Template

open Lexer

variable {Owner : Type}

/-! ### Sources that are closed -/

/-- The search for a closing brace passes over a text. -/
def Passed (cs : List Char) : Prop :=
  ∀ rest, Piece.takeCode (.code 0) (cs ++ rest) =
    (Piece.takeCode (.code 0) rest).map fun r => (cs ++ r.1, r.2)

theorem passed_nil : Passed [] := by
  intro rest
  simp

theorem Passed.append {a b : List Char} (ha : Passed a) (hb : Passed b) : Passed (a ++ b) := by
  intro rest
  rw [List.append_assoc, ha, hb, Option.map_map]
  simp [Function.comp_def]

theorem passed_char {c : Char} (hquote : c ≠ '"') (hopen : c ≠ '\x7b') (hclose : c ≠ '\x7d') :
    Passed [c] := by
  intro rest
  have hpass : (Piece.Within.code 0).pass c = some (.code 0) := by
    rw [Piece.Within.pass, if_neg hquote, if_neg hopen, if_neg hclose]
  rw [List.singleton_append, Piece.takeCode, hpass]
  rfl

theorem passed_plain {cs : List Char} (h : ∀ c ∈ cs, IsPlain c) : Passed cs := by
  induction cs with
  | nil => exact passed_nil
  | cons c cs ih =>
    obtain ⟨⟨-, -, hquote, hopen, hclose⟩, hcs⟩ := List.forall_mem_cons.mp h
    exact (passed_char hquote hopen hclose).append (ih hcs)

theorem passed_stringLiteral {body : List Char} (h : IsBody body) :
    Passed (stringLiteral body) := by
  intro rest
  have hpass : Piece.takeCode (.code 0) (stringLiteral body ++ rest) =
      (Piece.takeCode (.string 0) (body ++ '"' :: rest)).map fun r => ('"' :: r.1, r.2) := by
    simp [stringLiteral, Piece.takeCode, Piece.Within.pass]
  have hend : Piece.takeCode (.string 0) ('"' :: rest) =
      (Piece.takeCode (.code 0) rest).map fun r => ('"' :: r.1, r.2) := by
    simp [Piece.takeCode, Piece.Within.pass]
  rw [hpass, takeCode_body h, hend, Option.map_map, Option.map_map]
  simp [stringLiteral, Function.comp_def]

theorem Token.Spelled.passed {token : Token} (h : token.Spelled) : Passed token.text := by
  rcases h.isPlain with ⟨body, rfl⟩ | hplain
  · exact passed_stringLiteral h
  · exact passed_plain hplain

/-- **The brace behind a source that is cut into tokens closes its interpolation.** -/
theorem Cut.closes {offset : Nat} {cs : List Char} {lexemes : List Lexeme}
    (h : Cut offset cs lexemes) : Closes cs := by
  have hpassed : Passed cs := by
    induction h with
    | done => exact passed_nil
    | @space _ c _ _ hc _ ih =>
      have hspace : c ≠ '"' ∧ c ≠ '\x7b' ∧ c ≠ '\x7d' := by
        rcases isSpace_iff.mp hc with rfl | rfl | rfl | rfl | rfl <;> decide
      exact (passed_char hspace.1 hspace.2.1 hspace.2.2).append ih
    | token hfirst _ ih =>
      rw [← hfirst.text_append]
      exact hfirst.spelled.passed.append ih
  rw [Closes, hpassed]
  simp [Piece.takeCode, Piece.Within.pass]

/-- An interpolation of a closed source is read as the expression in it. -/
theorem parse_of_closes {source : List Char} (h : Closes source) (start : Pos) :
    (parse (String.ofList (interpolation source)) start : Except ParseFailure (Node Owner)) =
      (expression (start.locate (interpolation source))
        (ofString (start.locate (interpolation source)) (interpolation source).length) 2
        source).map fun n => .output start [n] := by
  have hrow : Row Closes [.code source] := .code h .nil
  have hsplit : Piece.split 0 (interpolation source) = pieces 0 [.code source] := by
    rw [← split_render hrow, render_code]
  rw [parse, String.toList_ofList, hsplit]
  generalize start.locate (interpolation source) = locate
  generalize (interpolation source).length = level
  simp only [pieces, ofPieces, ofPiece]
  cases expression locate (ofString locate level) 2 source <;> rfl

/-- **An interpolation of a phrase is read as the node of the phrase.** -/
theorem parse_of_readPhrase {source : List Char} {p : Phrase} {n : Node Owner} {start : Pos}
    (hblank : isBlank source = false) (hp : readPhrase 2 source = .ok p)
    (hn : Node.ofPhrase (start.locate (interpolation source))
      (ofString (start.locate (interpolation source)) (interpolation source).length) p = .ok n) :
    parse (String.ofList (interpolation source)) start = .ok (.output start [n]) := by
  obtain ⟨lexemes, hcut, -⟩ := readPhrase_eq_ok_iff.mp hp
  rw [parse_of_closes hcut.closes, expression_of_readPhrase hblank hp, hn]
  rfl

/-! ### Names and keys -/

/-- What a name begins with: `[a-zA-Z_][a-zA-Z0-9_\-]*`. -/
def IsRoot (cs : List Char) : Prop :=
  ∃ c first, startsName c = true ∧ (∀ x ∈ first, continuesName x = true) ∧ cs = c :: first

/-- A key in brackets. -/
def bracket (key : List Char) : List Char :=
  '[' :: (stringLiteral key ++ [']'])

/-- A name with keys in brackets behind it. -/
def bracketed (root : List Char) (keys : List (List Char)) : List Char :=
  root ++ keys.flatMap bracket

theorem IsRoot.not_blank {root : List Char} (h : IsRoot root) (rest : List Char) :
    isBlank (root ++ rest) = false := by
  obtain ⟨c, first, hc, -, rfl⟩ := h
  rw [isBlank, List.all_eq_false]
  refine ⟨c, by simp, ?_⟩
  rw [(isPlain_of_startsName hc).not_blank]
  exact Bool.false_ne_true

/-- A name that a bracket follows is read up to the bracket. -/
theorem readToken_root {root : List Char} (h : IsRoot root) (hword : ¬IsKeyword root)
    {rest : List Char} (hrest : ∀ c ∈ rest.head?, c = '[') :
    readToken .operator (root ++ rest) = some (.name root, rest) := by
  obtain ⟨c, first, hc, hfirst, rfl⟩ := h
  have hquote : c ≠ '"' := (isPlain_of_startsName hc).2.2.1
  have hdigit : c.isDigit = false := by
    by_contra hdigit
    rw [startsName_of_isDigit (by simpa using hdigit)] at hc
    cases hc
  have hend : rest.takeWhile continuesName = [] ∧ rest.dropWhile continuesName = rest ∧
      readSegments rest = ([], rest) := by
    cases rest with
    | nil => exact ⟨rfl, rfl, by rw [readSegments]; simp⟩
    | cons d rest =>
      obtain rfl := hrest d rfl
      exact ⟨rfl, rfl, by rw [readSegments]; simp⟩
  obtain ⟨htake, hdrop, hsegments⟩ := hend
  rw [List.cons_append, readToken, if_neg hquote, if_neg (by simp [hdigit]), if_pos hc]
  simp only [List.takeWhile_append_of_pos hfirst, List.dropWhile_append_of_pos hfirst, htake,
    hdrop, hsegments, List.append_nil, Token.ofWord_name hword]

/-- The tokens of keys in brackets. -/
def keyLexemes : Nat → List (List Char) → List Lexeme
  | _, [] => []
  | offset, key :: rest =>
    ⟨.openBracket, offset⟩ :: ⟨.quoted key, offset + 1⟩ ::
      ⟨.closeBracket, offset + key.length + 3⟩ :: keyLexemes (offset + key.length + 4) rest

theorem cut_keys {keys : List (List Char)} (h : ∀ key ∈ keys, IsBody key) (offset : Nat) :
    Cut offset (keys.flatMap bracket) (keyLexemes offset keys) := by
  induction keys generalizing offset with
  | nil => exact .done offset
  | cons key rest ih =>
    obtain ⟨hkey, hrest⟩ := List.forall_mem_cons.mp h
    have hquoted : readToken .operator (stringLiteral key ++ ']' :: rest.flatMap bracket) =
        some (.quoted key, ']' :: rest.flatMap bracket) := by
      simp [stringLiteral, readToken, readQuoted_body hkey]
    have htext : (key :: rest).flatMap bracket =
        '[' :: (stringLiteral key ++ ']' :: rest.flatMap bracket) := by
      simp [bracket]
    have hlength : offset + 1 + (Token.quoted key).text.length = offset + key.length + 3 := by
      simp [Token.text]
      omega
    rw [htext]
    refine .token (readToken_eq_some_iff.mp rfl) (.token (readToken_eq_some_iff.mp hquoted) ?_)
    show Cut (offset + 1 + (Token.quoted key).text.length) _ _
    rw [hlength]
    exact .token (readToken_eq_some_iff.mp rfl) (ih hrest _)

/-- The phrase of a target with keys in brackets behind it. -/
def Phrase.bracketed (target : Phrase) : Nat → List (List Char) → Phrase
  | _, [] => target
  | offset, key :: rest =>
    (Phrase.index target (.quoted (offset + 1) key)).bracketed (offset + key.length + 4) rest

theorem Derives.bracketed {target : Phrase} {lexemes : List Lexeme}
    (h : Derives .indexed target lexemes) (offset : Nat) (keys : List (List Char)) :
    Derives .indexed (target.bracketed offset keys) (lexemes ++ keyLexemes offset keys) := by
  -- the target grows by one look-up with every key, and stays on the level of look-ups
  induction keys generalizing target lexemes offset with
  | nil =>
    rw [keyLexemes, List.append_nil]
    exact h
  | cons key rest ih =>
    obtain ⟨d, rfl, rfl⟩ := h
    have hatom : Derives .atom (.quoted (offset + 1) key) [⟨.quoted key, offset + 1⟩] :=
      ⟨.quoted (offset + 1) key, rfl, rfl⟩
    obtain ⟨k, hphrase, hyield⟩ := hatom.loosen .expr (by decide)
    have hindex : Derives .indexed (.index d.phrase (.quoted (offset + 1) key))
        (d.yield ++ [⟨.openBracket, offset⟩, ⟨.quoted key, offset + 1⟩,
          ⟨.closeBracket, offset + key.length + 3⟩]) := by
      refine ⟨.index d offset k (offset + key.length + 3), ?_, ?_⟩
      · rw [Derivation.phrase, hphrase]
      · rw [Derivation.yield, hyield]
        rfl
    have hrest := ih hindex (offset + key.length + 4)
    rw [List.append_assoc] at hrest
    exact hrest

/-- A name with keys in brackets is one phrase. -/
theorem readPhrase_bracketed {root : List Char} (hroot : IsRoot root) (hword : ¬IsKeyword root)
    {keys : List (List Char)} (hkeys : ∀ key ∈ keys, IsBody key) (offset : Nat) :
    readPhrase offset (bracketed root keys) =
      .ok ((Phrase.name offset root).bracketed (offset + root.length) keys) := by
  have hread : readToken .operator (bracketed root keys) =
      some (.name root, keys.flatMap bracket) := by
    refine readToken_root hroot hword fun c hc => ?_
    cases keys with
    | nil => cases hc
    | cons key rest =>
      cases hc
      rfl
  have hname : Derives .atom (.name offset root) [⟨.name root, offset⟩] :=
    ⟨.name offset root, rfl, rfl⟩
  have hderives := (hname.loosen .indexed (by decide)).bracketed (offset + root.length) keys
  exact readPhrase_eq_ok_iff.mpr ⟨_,
    .token (readToken_eq_some_iff.mp hread) (cut_keys hkeys _), hderives.loosen .expr (by decide)⟩

/-- A name alone is one phrase. -/
theorem readPhrase_name {name : List Char} (hname : IsName name) (hword : ¬IsKeyword name)
    (offset : Nat) : readPhrase offset name = .ok (.name offset name) := by
  have hatom : Derives .atom (.name offset name) [⟨.name name, offset⟩] :=
    ⟨.name offset name, rfl, rfl⟩
  have hlongest : IsLongest (name ++ []) (.name name) [] :=
    (plain_name hname hword).isLongest (by simp)
  rw [List.append_nil] at hlongest
  exact readPhrase_eq_ok_iff.mpr ⟨_, .token hlongest (.done _), hatom.loosen .expr (by decide)⟩

/-! ### Chains of look-ups -/

/-- Keys that are text are looked up in what a tree gives, one behind the other. -/
inductive Node.Indexes : Node Owner → List (List Char) → Node Owner → Prop
  | nil (n : Node Owner) : Indexes n [] n
  | cons {pos place : Pos} {target n : Node Owner} {key : List Char} {keys : List (List Char)}
    (h : Indexes (.index pos target (.literal place (.text (String.ofList key)))) keys n) :
    Indexes target (key :: keys) n

theorem exists_indexes {locate : Nat → Pos}
    {string : Nat → List Char → Except ParseFailure (Node Owner)} {keys : List (List Char)}
    (hkeys : ∀ key ∈ keys, ∀ offset, ∃ place,
      string offset key = .ok (.literal place (.text (String.ofList key))))
    {target : Phrase} {m : Node Owner} (hm : Node.ofPhrase locate string target = .ok m)
    (offset : Nat) :
    ∃ n, Node.ofPhrase locate string (target.bracketed offset keys) = .ok n ∧
      m.Indexes keys n := by
  induction keys generalizing target m offset with
  | nil => exact ⟨m, hm, .nil m⟩
  | cons key rest ih =>
    obtain ⟨hkey, hrest⟩ := List.forall_mem_cons.mp hkeys
    obtain ⟨place, hplace⟩ := hkey (offset + 1 + 1)
    have hindex : Node.ofPhrase locate string (.index target (.quoted (offset + 1) key)) =
        .ok (.index (locate target.start) m (.literal place (.text (String.ofList key)))) := by
      rw [Node.ofPhrase, hm, Node.ofPhrase, hplace]
      rfl
    obtain ⟨n, hn, hindexes⟩ := ih hrest hindex (offset + key.length + 4)
    exact ⟨n, hn, .cons hindexes⟩

theorem escapeOpen_of_not_mem {cs : List Char} (h : '$' ∉ cs) : escapeOpen cs = cs := by
  induction cs with
  | nil => rfl
  | cons c cs ih =>
    rw [List.mem_cons, not_or] at h
    rw [escapeOpen_cons, ih h.2]
    intro rest heq
    exact h.1 (List.cons.inj heq).1.symm

/-- A string literal that is text alone is a literal of that text. -/
theorem ofString_text {body : List Char} (hne : body ≠ []) (hdollar : '$' ∉ body)
    (hslash : '\\' ∉ body) (locate : Nat → Pos) (level offset : Nat) :
    (ofString locate (level + 1) offset body : Except ParseFailure (Node Owner)) =
      .ok (.literal (locate offset) (.text (String.ofList body))) := by
  have hrow : Row Closes [.text body] := .last hne
  have hsplit := split_render hrow offset
  have hrender : render [.text body] = body := by
    rw [render, List.flatMap_singleton, Part.render, escapeOpen_of_not_mem hdollar]
  rw [hrender] at hsplit
  rw [ofString, hsplit]
  show closeString (locate offset) [.literal (locate offset) (.text (String.ofList body))] = _
  rw [closeString_text, String.toList_ofList, unescape_plain hslash]

theorem IsSegment.ne_nil {segment : List Char} (h : IsSegment segment) : segment ≠ [] := by
  rcases h with rfl | ⟨hne, -⟩
  · exact List.cons_ne_nil _ _
  · exact hne

/-- Characters that no segment of a name holds. -/
theorem IsSegment.not_mem {segment : List Char} (h : IsSegment segment) {c : Char}
    (hstar : c ≠ '*') (hc : continuesName c = false) : c ∉ segment := by
  intro hmem
  rcases h with rfl | ⟨-, hall⟩
  · exact hstar (List.mem_singleton.mp hmem)
  · rw [hall c hmem] at hc
    cases hc

theorem IsSegment.isBody {segment : List Char} (h : IsSegment segment) : IsBody segment :=
  isBody_of_not_mem (h.not_mem (by decide) rfl) (h.not_mem (by decide) rfl)

/-- **A name with keys in brackets is read as a chain of look-ups.** -/
theorem parse_bracketed {root : List Char} (hroot : IsRoot root) (hword : ¬IsKeyword root)
    {keys : List (List Char)} (hkeys : ∀ key ∈ keys, IsSegment key) (start : Pos) :
    ∃ (pos : Pos) (n : Node Owner),
      parse (String.ofList (interpolation (bracketed root keys))) start =
        .ok (.output start [n]) ∧ (Node.access none pos (String.ofList root)).Indexes keys n := by
  have hread := readPhrase_bracketed hroot hword (fun key hkey => (hkeys key hkey).isBody) 2
  have hstring : ∀ (locate : Nat → Pos) (level : Nat), ∀ key ∈ keys, ∀ offset, ∃ place,
      ofString locate (level + 1) offset key =
        .ok (.literal place (.text (String.ofList key)) : Node Owner) := by
    intro locate level key hkey offset
    have hsegment := hkeys key hkey
    have hdollar : '$' ∉ key := hsegment.not_mem (by decide) rfl
    have hslash : '\\' ∉ key := hsegment.not_mem (by decide) rfl
    exact ⟨_, ofString_text hsegment.ne_nil hdollar hslash locate level offset⟩
  have hname : ∀ (locate : Nat → Pos) string, Node.ofPhrase locate string (.name 2 root) =
      .ok (.access none (locate 2) (String.ofList root) : Node Owner) := by
    intro locate string
    rw [Node.ofPhrase]
  obtain ⟨n, hn, hindexes⟩ := exists_indexes (hstring _ _) (hname _ _) (2 + root.length)
  exact ⟨_, n, parse_of_readPhrase (hroot.not_blank _) hread hn, hindexes⟩

/-- A name alone is read as an access. -/
theorem parse_name {name : List Char} (hname : IsName name) (hword : ¬IsKeyword name)
    (start : Pos) : ∃ pos : Pos,
      parse (String.ofList (interpolation name)) start =
        .ok (.output start [(.access none pos (String.ofList name) : Node Owner)]) := by
  have hblank : isBlank name = false := by
    obtain ⟨c, first, segments, hc, hfirst, -, rfl⟩ := hname
    exact IsRoot.not_blank ⟨c, first, hc, hfirst, rfl⟩ (dotted segments)
  exact ⟨_, parse_of_readPhrase hblank (readPhrase_name hname hword 2) (by rw [Node.ofPhrase])⟩

end Interpolation.Template
