/-
Offsets count from anywhere.

* `Reader.step_shift`, `Reader.run_shift` — the reader does the same wherever its tokens
  stand, and carries their offsets along;
* `tokens_shift` — a text is cut into the same tokens wherever it begins;
* `readPhrase_shift` — an expression that is written further back is read as the same
  phrase, or refused for the same reason, further back;
* `split_shift` — so are the pieces of a template.

Design notes: the reader never looks at an offset.  It only puts offsets into phrases, so
moving the tokens before or after reading them makes no difference.
-/
import Interpolation.Proofs.Template.Sites

namespace Interpolation.Template

variable {d : Nat}

/-- A token that begins further back. -/
def Lexeme.shift (d : Nat) (l : Lexeme) : Lexeme :=
  ⟨l.token, l.offset + d⟩

namespace Phrase

mutual

/-- A phrase that is written further back. -/
def shift (d : Nat) : Phrase → Phrase
  | .number offset digits => .number (offset + d) digits
  | .bool offset b => .bool (offset + d) b
  | .quoted offset body => .quoted (offset + d) body
  | .name offset text => .name (offset + d) text
  | .call offset function arguments => .call (offset + d) function (shiftAll d arguments)
  | .group offset inner => .group (offset + d) (inner.shift d)
  | .index target key => .index (target.shift d) (key.shift d)
  | .unary offset op operand => .unary (offset + d) op (operand.shift d)
  | .binary op left right => .binary op (left.shift d) (right.shift d)
  | .conditional condition yes no =>
    .conditional (condition.shift d) (yes.shift d) (no.shift d)

def shiftAll (d : Nat) : List Phrase → List Phrase
  | [] => []
  | p :: rest => p.shift d :: shiftAll d rest

end

theorem shiftAll_eq_map (phrases : List Phrase) : shiftAll d phrases = phrases.map (shift d) := by
  induction phrases with
  | nil => rfl
  | cons p rest ih => rw [shiftAll, ih, List.map_cons]

@[simp] theorem start_shift (p : Phrase) : (p.shift d).start = p.start + d := by
  induction p with
  | index target key iht ihk => simpa [shift, start] using iht
  | binary op left right ihl ihr => simpa [shift, start] using ihl
  | conditional condition yes no ihc ihy ihn => simpa [shift, start] using ihc
  | _ => simp [shift, start]

end Phrase

/-- A construct that was begun further back. -/
def Pending.shift (d : Nat) : Pending → Pending
  | .unary offset op => .unary (offset + d) op
  | .binary op left => .binary op (left.shift d)
  | .yes condition => .yes (condition.shift d)
  | .no condition first => .no (condition.shift d) (first.shift d)
  | .group offset => .group (offset + d)
  | .index target => .index (target.shift d)
  | .call offset function arguments =>
    .call (offset + d) function (arguments.map (Phrase.shift d))

namespace Reader

/-- A reader whose tokens stood further back. -/
def shift (d : Nat) : Reader → Reader
  | .before stack => .before (stack.map (Pending.shift d))
  | .behind stack p => .behind (stack.map (Pending.shift d)) (p.shift d)

theorem settle_shift (level : Nat) (stack : List Pending) (p : Phrase) :
    settle level (stack.map (Pending.shift d)) (p.shift d) =
      ((settle level stack p).1.map (Pending.shift d), (settle level stack p).2.shift d) := by
  fun_induction settle level stack p with
  | case1 offset op stack p ih => simpa [Pending.shift, settle, Phrase.shift] using ih
  | case2 op left stack p h ih => simpa [Pending.shift, settle, Phrase.shift, h] using ih
  | case3 op left stack p h => simp [Pending.shift, settle, h]
  | case4 stack p hunary hbinary =>
    cases stack with
    | nil => rfl
    | cons first rest =>
      cases first with
      | unary offset op => exact absurd rfl (hunary offset op rest)
      | binary op left => exact absurd rfl (hbinary op left rest)
      | _ => simp [Pending.shift, settle]

theorem complete_shift (stack : List Pending) (p : Phrase) :
    complete (stack.map (Pending.shift d)) (p.shift d) =
      ((complete stack p).1.map (Pending.shift d), (complete stack p).2.shift d) := by
  fun_induction complete stack p with
  | case1 offset op stack p ih => simpa [Pending.shift, complete, Phrase.shift] using ih
  | case2 op left stack p ih => simpa [Pending.shift, complete, Phrase.shift] using ih
  | case3 condition yes stack p ih => simpa [Pending.shift, complete, Phrase.shift] using ih
  | case4 stack p hunary hbinary hno =>
    cases stack with
    | nil => rfl
    | cons first rest =>
      cases first with
      | unary offset op => exact absurd rfl (hunary offset op rest)
      | binary op left => exact absurd rfl (hbinary op left rest)
      | no condition yes => exact absurd rfl (hno condition yes rest)
      | _ => simp [Pending.shift, complete]

theorem comparing_shift (stack : List Pending) :
    comparing (stack.map (Pending.shift d)) = comparing stack := by
  cases stack with
  | nil => rfl
  | cons first rest => cases first <;> rfl

theorem readBinary_shift (op : BinaryOp) (stack : List Pending) (p : Phrase) :
    readBinary op (stack.map (Pending.shift d)) (p.shift d) =
      (readBinary op stack p).map (shift d) := by
  simp only [readBinary, settle_shift, comparing_shift]
  split
  · split <;> rfl
  · rfl

theorem stepBefore_shift (stack : List Pending) (offset : Nat) (token : Token) :
    stepBefore (stack.map (Pending.shift d)) (offset + d) token =
      (stepBefore stack offset token).map (shift d) := by
  cases token with
  | operator op => cases op <;> rfl
  | closeParen =>
    cases stack with
    | nil => rfl
    | cons first rest =>
      cases first with
      | call offset function arguments => cases arguments <;> rfl
      | _ => rfl
  | _ => rfl

theorem stepBehind_shift (stack : List Pending) (p : Phrase) (token : Token) :
    stepBehind (stack.map (Pending.shift d)) (p.shift d) token =
      (stepBehind stack p token).map (shift d) := by
  cases token with
  | operator op => exact readBinary_shift op stack p
  | question => simp [stepBehind, settle_shift, shift, Pending.shift]
  | openParen => cases p <;> rfl
  | colon =>
    simp only [stepBehind, complete_shift]
    generalize complete stack p = done
    obtain ⟨_ | ⟨first, rest⟩, operand⟩ := done
    · rfl
    · cases first <;> rfl
  | comma =>
    simp only [stepBehind, complete_shift]
    generalize complete stack p = done
    obtain ⟨_ | ⟨first, rest⟩, operand⟩ := done
    · rfl
    · cases first <;> simp [shift, Pending.shift]
  | closeParen =>
    simp only [stepBehind, complete_shift]
    generalize complete stack p = done
    obtain ⟨_ | ⟨first, rest⟩, operand⟩ := done
    · rfl
    · cases first <;> simp [shift, Pending.shift, Phrase.shift, Phrase.shiftAll_eq_map]
  | closeBracket =>
    simp only [stepBehind, complete_shift]
    generalize complete stack p = done
    obtain ⟨_ | ⟨first, rest⟩, operand⟩ := done
    · rfl
    · cases first <;> rfl
  | _ => rfl

/-- A token that stands further back is read by a reader further back. -/
theorem step_shift (r : Reader) (lexeme : Lexeme) :
    (r.shift d).step (lexeme.shift d) = (r.step lexeme).map (shift d) := by
  cases r with
  | before stack => exact stepBefore_shift stack lexeme.offset lexeme.token
  | behind stack p => exact stepBehind_shift stack p lexeme.token

theorem run_shift (r : Reader) (lexemes : List Lexeme) :
    (r.shift d).run (lexemes.map (Lexeme.shift d)) =
      match r.run lexemes with
      | .ok last => .ok (last.shift d)
      | .error bad => .error (bad.shift d) := by
  induction lexemes generalizing r with
  | nil => rfl
  | cons lexeme rest ih =>
    rw [List.map_cons, run_cons, run_cons, step_shift]
    cases r.step lexeme with
    | none => rfl
    | some next => exact ih next

theorem result?_shift (r : Reader) : (r.shift d).result? = r.result?.map (Phrase.shift d) := by
  cases r with
  | before stack => rfl
  | behind stack p =>
    simp only [shift, result?, complete_shift]
    generalize complete stack p = done
    obtain ⟨_ | ⟨first, rest⟩, whole⟩ := done
    · rfl
    · rfl

end Reader

/-- **A text is cut into the same tokens wherever it begins.** -/
theorem tokens_shift (due : Due) (offset : Nat) (cs : List Char) :
    Lexer.tokens due (offset + d) cs =
      ⟨(Lexer.tokens due offset cs).lexemes.map (Lexeme.shift d),
        (Lexer.tokens due offset cs).stuck.map fun s => (s.1, s.2 + d)⟩ := by
  induction hlen : cs.length using Nat.strongRecOn generalizing due offset cs with
  | ind n ih =>
    cases cs with
    | nil => simp [tokens_nil]
    | cons c cs =>
      cases hc : Lexer.isSpace c with
      | true =>
        rw [tokens_space due _ hc, tokens_space due _ hc, Nat.add_right_comm]
        exact ih cs.length (by simp [← hlen]) due _ cs rfl
      | false =>
        cases hread : Lexer.readToken due (c :: cs) with
        | none =>
          rw [tokens_stuck _ hc hread, tokens_stuck _ hc hread]
          rfl
        | some found =>
          obtain ⟨token, rest⟩ := found
          have hrest := ih rest.length (hlen ▸ Lexer.readToken_length hread) token.leads
            (offset + token.text.length) rest rfl
          rw [tokens_token _ hc hread, tokens_token _ hc hread, Nat.add_right_comm, hrest]
          rfl

/-- **An expression is read the same wherever it is written.** -/
theorem readPhrase_shift (offset : Nat) (source : List Char) :
    readPhrase (offset + d) source =
      match readPhrase offset source with
      | .ok p => .ok (p.shift d)
      | .error (cause, place) => .error (cause, place + d) := by
  -- nothing has been begun at the start, so there is nothing to move
  have hrun : Reader.start.run
      ((Lexer.tokens .operand offset source).lexemes.map (Lexeme.shift d)) = _ :=
    Reader.run_shift .start _
  simp only [readPhrase, tokens_shift, hrun]
  cases Reader.start.run (Lexer.tokens .operand offset source).lexemes with
  | error bad => rfl
  | ok last =>
    cases (Lexer.tokens .operand offset source).stuck with
    | some stuck => rfl
    | none =>
      simp only [Option.map_none, Reader.result?_shift]
      cases last.result? with
      | some p => rfl
      | none => simp [Nat.add_right_comm]

/-- A piece that begins further back. -/
def Piece.shift (d : Nat) : Piece → Piece
  | .text offset chars => .text (offset + d) chars
  | .code offset source => .code (offset + d) source
  | .unclosed offset => .unclosed (offset + d)

theorem Piece.addText_shift (offset : Nat) (chars : List Char) (pieces : List Piece) :
    addText (offset + d) chars (pieces.map (shift d)) =
      (addText offset chars pieces).map (shift d) := by
  cases pieces with
  | nil => rfl
  | cons first rest => cases first <;> rfl

theorem Piece.split_shift (offset : Nat) (cs : List Char) :
    split (offset + d) cs = (split offset cs).map (shift d) := by
  fun_induction split offset cs with
  | case1 offset => rw [split_nil]; rfl
  | case2 offset cs ih => rw [split_escape, ← addText_shift, ← ih, Nat.add_right_comm]
  | case3 offset cs hopen => rw [split_open_none _ hopen]; rfl
  | case4 offset cs source rest hopen ih =>
    rw [split_open _ hopen, List.map_cons, ← ih, shift]
    congr 2 <;> omega
  | case5 offset c cs hescape hopen ih =>
    rw [split.eq_4 _ _ _ hescape hopen, ← addText_shift, ← ih, Nat.add_right_comm]

end Interpolation.Template
