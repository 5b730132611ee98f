import Calculator.Number.Literal
import Calculator.Proofs.Lexemes
import Mathlib.Data.List.TakeWhile

/-!
The number that a literal stands for: its digits, scaled down by a power of ten for each digit
behind the point. Every spelling of a literal is read as the double nearest to that decimal.
-/
namespace Calculator

def Decimal.ofLiteral (text : List Char) : Decimal :=
  ⟨Nat.ofDigitChars 10 (text.filter (· != '.')) 0,
    -((text.dropWhile (· != '.')).tail.length : Int)⟩

def Number.ofLiteral (text : String) : Float := (Decimal.ofLiteral text.toList).toFloat

theorem Kind.Digits.ne_point {run : List Char} (h : Kind.Digits run) :
    ∀ c ∈ run, (c != '.') = true := by
  intro c hc
  have hdigit := h.2 c hc
  by_cases hpoint : c = '.'
  · rw [hpoint] at hdigit
    cases hdigit
  · exact bne_iff_ne.mpr hpoint

namespace Decimal

variable {whole fraction : List Char}

theorem ofLiteral_number (h : Kind.Digits whole) :
    ofLiteral whole = ⟨Nat.ofDigitChars 10 whole 0, 0⟩ := by
  have hpoint : whole.dropWhile (· != '.') = [] := List.dropWhile_eq_nil_iff.mpr h.ne_point
  rw [ofLiteral, List.filter_eq_self.mpr h.ne_point, hpoint]
  rfl

theorem ofLiteral_decimal (hwhole : Kind.Digits whole) (hfraction : Kind.Digits fraction) :
    ofLiteral (whole ++ '.' :: fraction) =
      ⟨Nat.ofDigitChars 10 (whole ++ fraction) 0, -(fraction.length : Int)⟩ := by
  have hpoint : (whole ++ '.' :: fraction).dropWhile (· != '.') = '.' :: fraction :=
    Lexeme.dropWhile_append_of_stop hwhole.ne_point (by simp)
  have hfilter : (whole ++ '.' :: fraction).filter (· != '.') = whole ++ fraction := by
    rw [List.filter_append, List.filter_eq_self.mpr hwhole.ne_point]
    exact congrArg (whole ++ ·) (List.filter_eq_self.mpr hfraction.ne_point)
  rw [ofLiteral, hpoint, hfilter]
  rfl

theorem read?_number (h : Kind.Digits whole) : read? whole = some (ofLiteral whole) := by
  have htake : whole.takeWhile Char.isDigit = whole := List.takeWhile_eq_self_iff.mpr h.2
  have hdrop : whole.dropWhile Char.isDigit = [] := List.dropWhile_eq_nil_iff.mpr h.2
  rw [ofLiteral_number h]
  simp [read?, htake, hdrop, splitFraction, exponent?, h.1]

theorem read?_decimal (hwhole : Kind.Digits whole) (hfraction : Kind.Digits fraction) :
    read? (whole ++ '.' :: fraction) = some (ofLiteral (whole ++ '.' :: fraction)) := by
  have htake : (whole ++ '.' :: fraction).takeWhile Char.isDigit = whole :=
    Lexeme.takeWhile_append_of_stop hwhole.2 (by simp)
  have hdrop : (whole ++ '.' :: fraction).dropWhile Char.isDigit = '.' :: fraction :=
    Lexeme.dropWhile_append_of_stop hwhole.2 (by simp)
  have htake' : fraction.takeWhile Char.isDigit = fraction :=
    List.takeWhile_eq_self_iff.mpr hfraction.2
  have hdrop' : fraction.dropWhile Char.isDigit = [] :=
    List.dropWhile_eq_nil_iff.mpr hfraction.2
  rw [ofLiteral_decimal hwhole hfraction]
  simp [read?, htake, hdrop, htake', hdrop', splitFraction, exponent?, hwhole.1]

theorem splitSign_of_isDigit {c : Char} (hc : c.isDigit = true) (tail : List Char) :
    splitSign (c :: tail) = (false, c :: tail) := by
  have hminus : c ≠ '-' := by
    intro h
    rw [h] at hc
    cases hc
  have hplus : c ≠ '+' := by
    intro h
    rw [h] at hc
    cases hc
  simp [splitSign, hminus, hplus]

end Decimal

namespace Number

/-- A literal has no sign, so that all of it is its magnitude. -/
theorem read?_of_digits {whole rest : List Char} {lexeme : String} (h : Kind.Digits whole)
    (hlexeme : lexeme.toList = whole ++ rest)
    (hread : Decimal.read? lexeme.toList = some (Decimal.ofLiteral lexeme.toList)) :
    read? lexeme = some (ofLiteral lexeme) := by
  obtain ⟨c, tail, hwhole, hc, _⟩ := Lexeme.head_of_digits h
  have hsign : Decimal.splitSign lexeme.toList = (false, lexeme.toList) := by
    rw [hlexeme, hwhole]
    exact Decimal.splitSign_of_isDigit hc (tail ++ rest)
  simp [read?, hsign, hread, ofLiteral]

theorem read?_literal {k : Kind} {lexeme : String} (hk : k.isOperand = true)
    (h : k.Spells lexeme.toList) : read? lexeme = some (ofLiteral lexeme) := by
  cases k <;> try cases hk
  case number =>
    exact read?_of_digits h (List.append_nil _).symm (Decimal.read?_number h)
  case decimal =>
    obtain ⟨whole, fraction, hlexeme, hwhole, hfraction⟩ := h
    refine read?_of_digits hwhole hlexeme ?_
    rw [hlexeme]
    exact Decimal.read?_decimal hwhole hfraction

end Number

end Calculator
