import Calculator.Kind

/-!
The texts that a kind of token can be read from, said without the scanner.
-/
namespace Calculator.Kind

def Digits (text : List Char) : Prop := text ≠ [] ∧ ∀ c ∈ text, c.isDigit = true

def Spells : Kind → List Char → Prop
  | .number, text => Digits text
  | .decimal, text =>
    ∃ whole fraction, text = whole ++ '.' :: fraction ∧ Digits whole ∧ Digits fraction
  | .whitespace, text => text ≠ [] ∧ ∀ c ∈ text, c = ' ' ∨ c = '\t' ∨ c = '\r' ∨ c = '\n'
  | .openBrace, text => text = ['(']
  | .closeBrace, text => text = [')']
  | .add, text => text = ['+']
  | .sub, text => text = ['-']
  | .neg, text => text = ['-']
  | .mul, text => text = ['*']
  | .mod, text => text = ['%']
  | .div, text => text = ['/']
  | .exp, text => text = ['^']

theorem Spells.ne_nil {k : Kind} {text : List Char} (h : k.Spells text) : text ≠ [] := by
  cases k
  case number => exact h.1
  case decimal =>
    obtain ⟨whole, fraction, rfl, _⟩ := h
    simp
  case whitespace => exact h.1
  all_goals
    rw [show text = _ from h]
    simp

end Calculator.Kind
