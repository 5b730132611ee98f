import Calculator.Number.Literal

/-!
The remainder of two doubles after both are cut to their whole parts. It is found in whole numbers,
so it is exact however far apart the two magnitudes are, and it takes the sign of the dividend.
-/
namespace Calculator.Number

open Float.Model (UnpackedFloat)

def wholePart (m : Nat) (e : Int) : Nat := (m <<< e.toNat) >>> (-e).toNat

def ofSigned : UnpackedFloat.Sign → Nat → Float
  | .positive, n => Float.ofNat n
  | .negative, n => -(Float.ofNat n)

def truncate (x : Float) : Float :=
  match x.toModel.unpack with
  | .finite sign m e _ => ofSigned sign (wholePart m e)
  | _ => x

/-- What is left of `a` when whole multiples of `n` are taken from its whole part. -/
def remainderBy (a : Float) (n : Nat) : Float :=
  match a.toModel.unpack with
  | .finite sign m e _ => ofSigned sign (wholePart m e % n)
  | .zero _ => a
  | .infinity _ | .notANumber => notANumber

/-- The remainder of the whole parts, and none for a divisor whose whole part is zero. An infinite
divisor leaves the whole part of the dividend. -/
def remainder? (a b : Float) : Option Float :=
  match b.toModel.unpack with
  | .zero _ => none
  | .finite _ m e _ => if wholePart m e = 0 then none else some (remainderBy a (wholePart m e))
  | .infinity _ => some (if a.isInf then notANumber else truncate a)
  | .notANumber => some notANumber

end Calculator.Number
