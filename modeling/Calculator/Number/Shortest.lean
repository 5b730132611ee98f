import Calculator.Number.Decimal

/-!
The text of a double: the fewest decimal digits that are read back as the same double, and of the
decimals with so many digits the one nearest to it. A value halfway between two such decimals takes
the larger one.
-/
namespace Calculator

/-- The positive number `mantissa * 2 ^ exponent`, a finite double without its sign. -/
structure Magnitude where
  mantissa : Nat
  exponent : Int
deriving DecidableEq, Repr

namespace Magnitude

def ofFloat? (x : Float) : Option Magnitude :=
  match x.toModel.unpack with
  | .finite .positive m e _ => some ⟨m, e⟩
  | _ => none

def ReadsBack (x : Magnitude) (d : Decimal) : Prop := ofFloat? d.toFloat = some x

instance (x : Magnitude) (d : Decimal) : Decidable (x.ReadsBack d) :=
  inferInstanceAs (Decidable (ofFloat? d.toFloat = some x))

/-- Numerator of the magnitude in units of `10 ^ k`. -/
def numerator (x : Magnitude) (k : Int) : Nat :=
  (x.mantissa <<< x.exponent.toNat) * Decimal.scale (-k).toNat

def denominator (x : Magnitude) (k : Int) : Nat :=
  (1 <<< (-x.exponent).toNat) * Decimal.scale k.toNat

def multiple (n : Nat) (k : Int) : Decimal := ⟨n * Decimal.scale k.toNat, min k 0⟩

/-- The greatest multiple of `10 ^ k` that is not above the magnitude. -/
def below (x : Magnitude) (k : Int) : Decimal := multiple (x.numerator k / x.denominator k) k

def above (x : Magnitude) (k : Int) : Decimal := multiple (x.numerator k / x.denominator k + 1) k

def neighbours (x : Magnitude) (k : Int) : List Decimal :=
  if 2 * (x.numerator k % x.denominator k) < x.denominator k then [x.below k, x.above k]
  else [x.above k, x.below k]

/-- The first neighbour that reads back among ever finer powers of ten, from `10 ^ k` on for
`steps` steps, and otherwise the neighbour below on the finest. -/
def shortestFrom (x : Magnitude) : Nat → Int → Decimal
  | 0, k => x.below k
  | steps + 1, k =>
    match (x.neighbours k).find? fun d => x.ReadsBack d with
    | some d => d
    | none => x.shortestFrom steps (k - 1)

/-- The search starts with a power of ten above the magnitude and ends where a multiple is the
magnitude itself. -/
def shortest (x : Magnitude) : Decimal :=
  let top : Int := (Nat.toDigits 10 (x.below 0).digits).length
  x.shortestFrom (top - min x.exponent 0).toNat top

def render (x : Magnitude) : List Char := x.shortest.render

end Magnitude

namespace Number

open Float.Model (UnpackedFloat)

def signText : UnpackedFloat.Sign → List Char
  | .negative => ['-']
  | .positive => []

/-- The text of a double; zero keeps its sign and a value that is not a number has none. -/
def render (x : Float) : String :=
  match x.toModel.unpack with
  | .notANumber => "NaN"
  | .infinity sign => String.ofList (signText sign ++ ['i', 'n', 'f'])
  | .zero sign => String.ofList (signText sign ++ ['0'])
  | .finite sign m e _ => String.ofList (signText sign ++ (Magnitude.mk m e).render)

end Number

end Calculator
