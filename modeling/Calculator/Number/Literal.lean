import Calculator.Number.Decimal

/-!
Reading a number from text: an optional sign, then digits with an optional point and an optional
power of ten, or one of the words for infinity and for a value that is not a number. The whole
text has to be used.
-/
namespace Calculator

namespace Decimal

def digits? (text : List Char) : Option Nat :=
  if text ≠ [] ∧ text.all Char.isDigit then some (Nat.ofDigitChars 10 text 0) else none

/-- A sign in front of a text, true for a minus, and the text behind it. -/
def splitSign : List Char → Bool × List Char
  | '-' :: rest => (true, rest)
  | '+' :: rest => (false, rest)
  | text => (false, text)

/-- The power of ten behind the digits: nothing, or a letter e and a signed whole number. -/
def exponent? : List Char → Option Int
  | [] => some 0
  | c :: rest =>
    if c = 'e' ∨ c = 'E' then
      match splitSign rest with
      | (true, text) => (digits? text).map fun n => -(n : Int)
      | (false, text) => (digits? text).map fun n => (n : Int)
    else none

def splitFraction : List Char → List Char × List Char
  | '.' :: rest => (rest.takeWhile Char.isDigit, rest.dropWhile Char.isDigit)
  | text => ([], text)

/-- A decimal with a digit on at least one side of its point. -/
def read? (text : List Char) : Option Decimal :=
  let whole := text.takeWhile Char.isDigit
  let (fraction, rest) := splitFraction (text.dropWhile Char.isDigit)
  if whole = [] ∧ fraction = [] then none
  else (exponent? rest).map fun e =>
    ⟨Nat.ofDigitChars 10 (whole ++ fraction) 0, e - fraction.length⟩

end Decimal

namespace Number

def infinity : Float := 1 / 0

def notANumber : Float := 0 / 0

def word? (text : List Char) : Option Float :=
  let lower := String.ofList (text.map Char.toLower)
  if lower = "inf" ∨ lower = "infinity" then some infinity
  else if lower = "nan" then some notANumber
  else none

def read? (text : String) : Option Float :=
  let (negative, magnitude) := Decimal.splitSign text.toList
  let value := ((Decimal.read? magnitude).map Decimal.toFloat).or (word? magnitude)
  if negative then value.map (-·) else value

end Number

end Calculator
