/-!
Decimal numbers without a sign: a whole number scaled by a power of ten. A decimal stands for the
double nearest to it, and is written in positional notation, never with an exponent.
-/
namespace Calculator

/-- The number `digits * 10 ^ exponent`. -/
structure Decimal where
  digits : Nat
  exponent : Int
deriving DecidableEq, Repr

namespace Decimal

def scale (zeros : Nat) : Nat := Nat.pow 10 zeros

/-- The nearest double, halves going to the even neighbour. -/
def toFloat (d : Decimal) : Float :=
  Float.ofScientific d.digits (decide (d.exponent < 0)) d.exponent.natAbs

def lastDigits (places n : Nat) : List Char :=
  let shown := Nat.toDigits 10 (n % scale places)
  List.replicate (places - shown.length) '0' ++ shown

def render (d : Decimal) : List Char :=
  match d.exponent with
  | .ofNat zeros => Nat.toDigits 10 (d.digits * scale zeros)
  | .negSucc n =>
    let places := n + 1
    Nat.toDigits 10 (d.digits / scale places) ++ '.' :: lastDigits places d.digits

end Decimal

end Calculator
