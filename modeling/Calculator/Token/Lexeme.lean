import Calculator.Error

/-!
The first lexeme of a text: the longest run of characters at its front that forms a literal, a
stretch of whitespace or a symbol. Main statements: a lexeme and the text behind it make up the
whole text, and a lexeme is never empty.
-/
namespace Calculator

structure Lexeme where
  kind : Kind
  text : List Char
  rest : List Char
deriving DecidableEq, Repr

namespace Lexeme

def isBlank (c : Char) : Bool := c = ' ' ∨ c = '\t' ∨ c = '\r' ∨ c = '\n'

theorem isBlank_iff {c : Char} : isBlank c = true ↔ c = ' ' ∨ c = '\t' ∨ c = '\r' ∨ c = '\n' :=
  decide_eq_true_iff

/-- A minus negates where an operand can begin, and subtracts behind an operand; `previous` is the
kind of the nearest token before it that is not whitespace. -/
def minus (previous : Option Kind) : Kind :=
  match previous with
  | none => .neg
  | some k => if k.isOperator ∨ k = .openBrace then .neg else .sub

def symbol? (previous : Option Kind) : Char → Option Kind
  | '(' => some .openBrace
  | ')' => some .closeBrace
  | '+' => some .add
  | '-' => some (minus previous)
  | '*' => some .mul
  | '%' => some .mod
  | '/' => some .div
  | '^' => some .exp
  | _ => none

def missingDigit (p : Position) : List Char → LexicalError
  | [] => .unexpectedEnd (.ofList [.number]) p
  | c :: _ => .unexpectedToken (String.singleton c) p

def literal (p : Position) (text : List Char) : Except LexicalError Lexeme :=
  let whole := text.takeWhile Char.isDigit
  match text.dropWhile Char.isDigit with
  | '.' :: rest =>
    let fraction := rest.takeWhile Char.isDigit
    if fraction = [] then .error (missingDigit (p.advance (whole ++ ['.'])) rest)
    else .ok ⟨.decimal, whole ++ '.' :: fraction, rest.dropWhile Char.isDigit⟩
  | rest => .ok ⟨.number, whole, rest⟩

def first (previous : Option Kind) (p : Position) (c : Char) (rest : List Char) :
    Except LexicalError Lexeme :=
  if c.isDigit then literal p (c :: rest)
  else if isBlank c then
    .ok ⟨.whitespace, c :: rest.takeWhile isBlank, rest.dropWhile isBlank⟩
  else match symbol? previous c with
    | some kind => .ok ⟨kind, [c], rest⟩
    | none =>
      if c = '.' then .error (.unexpectedToken "." p)
      else .error (.unknownToken (String.singleton c) p)

private theorem literal_text_append_rest {p : Position} {text : List Char} {l : Lexeme}
    (h : literal p text = .ok l) : l.text ++ l.rest = text := by
  simp only [literal] at h
  have hsplit := List.takeWhile_append_dropWhile (p := Char.isDigit) (l := text)
  split at h
  · rename_i rest hrest
    split at h
    · cases h
    · cases h
      rw [hrest] at hsplit
      simpa using hsplit
  · cases h
    exact hsplit

/-- Nothing is lost between a lexeme and the text behind it. -/
theorem text_append_rest {previous : Option Kind} {p : Position} {c : Char} {rest : List Char}
    {l : Lexeme} (h : first previous p c rest = .ok l) : l.text ++ l.rest = c :: rest := by
  unfold first at h
  split at h
  · exact literal_text_append_rest h
  · split at h
    · cases h
      simp
    · split at h
      · cases h
        simp
      · split at h <;> cases h

private theorem literal_text_ne_nil {p : Position} {c : Char} {rest : List Char} {l : Lexeme}
    (hc : c.isDigit = true) (h : literal p (c :: rest) = .ok l) : l.text ≠ [] := by
  simp only [literal] at h
  split at h
  · split at h
    · cases h
    · cases h
      simp
  · cases h
    simp [hc]

theorem text_ne_nil {previous : Option Kind} {p : Position} {c : Char} {rest : List Char}
    {l : Lexeme} (h : first previous p c rest = .ok l) : l.text ≠ [] := by
  unfold first at h
  split at h
  · rename_i hc
    exact literal_text_ne_nil hc h
  · split at h
    · cases h
      simp
    · split at h
      · cases h
        simp
      · split at h <;> cases h

/-- The text behind the first lexeme is shorter than the text. -/
theorem length_rest_lt {previous : Option Kind} {p : Position} {c : Char} {rest : List Char}
    {l : Lexeme} (h : first previous p c rest = .ok l) :
    l.rest.length < (c :: rest).length := by
  have hlength := congrArg List.length (text_append_rest h)
  have hpos := List.length_pos_iff.2 (text_ne_nil h)
  rw [List.length_append] at hlength
  omega

end Lexeme

end Calculator
