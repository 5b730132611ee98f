import Calculator.Token
import Calculator.Token.Lexeme

/-!
Scanning: a text is cut into lexemes from the left, each with the place where it begins, and the
first fault stops the scan. Whitespace becomes tokens too, so that nothing of the text is lost.
Groups are counted, since a text that closes more groups than it has opened, or that leaves one
open, is refused here.
-/
namespace Calculator.Token

def lookback (previous : Option Kind) (k : Kind) : Option Kind :=
  if k = .whitespace then previous else some k

/-- Scans a text that begins at `p` inside `depth` open groups. -/
def scanFrom (p : Position) (depth : Nat) (previous : Option Kind) (text : List Char) :
    Except LexicalError (List Token) :=
  match text with
  | [] => if depth = 0 then .ok [] else .error (.unexpectedEnd (.ofList [.closeBrace]) p)
  | c :: rest =>
    match _h : Lexeme.first previous p c rest with
    | .error e => .error e
    | .ok l =>
      if l.kind = .closeBrace ∧ depth = 0 then .error (.unexpectedCloseBrace p)
      else
        (scanFrom (p.advance l.text) (l.kind.depthAfter depth) (lookback previous l.kind)
          l.rest).map (⟨l.kind, String.ofList l.text, p⟩ :: ·)
termination_by text.length
decreasing_by exact Lexeme.length_rest_lt _h

@[simp] theorem scanFrom_nil (p : Position) (depth : Nat) (previous : Option Kind) :
    scanFrom p depth previous [] =
      if depth = 0 then .ok [] else .error (.unexpectedEnd (.ofList [.closeBrace]) p) := by
  rw [scanFrom]

theorem scanFrom_cons_error {p : Position} {previous : Option Kind} {c : Char} {rest : List Char}
    {e : LexicalError} (h : Lexeme.first previous p c rest = .error e) (depth : Nat) :
    scanFrom p depth previous (c :: rest) = .error e := by
  rw [scanFrom]
  split
  · rename_i e' he
    rw [h] at he
    exact congrArg Except.error (Except.error.inj he).symm
  · rename_i l hl
    rw [h] at hl
    cases hl

theorem scanFrom_cons_ok {p : Position} {previous : Option Kind} {c : Char} {rest : List Char}
    {l : Lexeme} (h : Lexeme.first previous p c rest = .ok l) (depth : Nat) :
    scanFrom p depth previous (c :: rest) =
      if l.kind = .closeBrace ∧ depth = 0 then .error (.unexpectedCloseBrace p)
      else
        (scanFrom (p.advance l.text) (l.kind.depthAfter depth) (lookback previous l.kind)
          l.rest).map (⟨l.kind, String.ofList l.text, p⟩ :: ·) := by
  rw [scanFrom]
  split
  · rename_i e he
    rw [h] at he
    cases he
  · rename_i l' hl
    rw [h] at hl
    rw [Except.ok.inj hl]

def scan (source : String) : Except LexicalError (List Token) :=
  scanFrom .start 0 none source.toList

end Calculator.Token
