import Mathlib

/-!
Doubles by their unpacked forms. A double is known from what it is unpacked into, and turning the
sign of that form turns the sign of the double. The mantissa and the exponent of a finite double
keep to the bounds of the format.
-/
namespace Calculator.Number

open Float.Model

section Patterns

/-- All bit patterns of values that are not numbers are unpacked alike, so that it does not matter
which of them is packed. -/
theorem unpack_pack_unpack (b : BitVec Format.binary64.numBits) :
    UnpackedFloat.unpack .binary64 ((UnpackedFloat.unpack .binary64 b).pack .binary64) =
      UnpackedFloat.unpack .binary64 b := by
  rw [UnpackedFloat.pack_unpack b]
  split_ifs with hnan
  · have hfields : UnpackedFloat.unpackExponent b = -1#_ ∧
        UnpackedFloat.unpackMantissa b ≠ 0#_ := by
      simpa [UnpackedFloat.isNaNBits] using hnan
    rw [UnpackedFloat.unpack_packedNaN, UnpackedFloat.unpack]
    simp only [hfields.1, hfields.2, if_true, if_false]
  · rfl

/-- Turning the sign field turns the sign of the unpacked form. -/
theorem unpack_packComponents_neg (sign : UnpackedFloat.Sign) (exponent : BitVec 11)
    (fraction : BitVec 52) :
    UnpackedFloat.unpack .binary64
        (UnpackedFloat.packComponents .binary64 (-sign) exponent fraction) =
      (UnpackedFloat.unpack .binary64
        (UnpackedFloat.packComponents .binary64 sign exponent fraction)).neg := by
  simp only [UnpackedFloat.unpack, UnpackedFloat.unpackExponent_packComponents,
    UnpackedFloat.unpackMantissa_packComponents, UnpackedFloat.unpackSign_packComponents,
    UnpackedFloat.Sign.ofBitVec_toBitVec]
  split_ifs <;> rfl

theorem unpack_pack_neg (b : BitVec Format.binary64.numBits) :
    UnpackedFloat.unpack .binary64 ((UnpackedFloat.unpack .binary64 b).neg.pack .binary64) =
      (UnpackedFloat.unpack .binary64 b).neg := by
  have hneg := unpack_packComponents_neg (UnpackedFloat.Sign.ofBitVec (UnpackedFloat.unpackSign b))
    (UnpackedFloat.unpackExponent b) (UnpackedFloat.unpackMantissa b)
  rw [UnpackedFloat.packComponents_unpackSign_unpackExponent_unpackMantissa] at hneg
  rw [← hneg, unpack_pack_unpack]

/-- The mantissas and exponents of doubles: fifty-three bits with a leading one, or fewer bits at
the smallest exponent. -/
structure Canonical (m : Nat) (e : Int) : Prop where
  pos : 0 < m
  lt : m < 2 ^ 53
  smallest_le : -1074 ≤ e
  le_largest : e ≤ 971
  leading : 2 ^ 52 ≤ m ∨ e = -1074

/-- The mantissa behind a leading one. -/
theorem toNat_leading (fraction : BitVec 52) :
    (1#1 ++ fraction).toNat = 2 ^ 52 + fraction.toNat := by
  rw [BitVec.toNat_append, ← Nat.shiftLeft_add_eq_or_of_lt fraction.isLt]
  rfl

theorem canonical_of_unpack_eq {b : BitVec Format.binary64.numBits} {sign : UnpackedFloat.Sign}
    {m : Nat} {e : Int} {hm : 0 < m}
    (h : UnpackedFloat.unpack .binary64 b = .finite sign m e hm) : Canonical m e := by
  have hless : (UnpackedFloat.unpackMantissa b).toNat < 2 ^ 52 := (UnpackedFloat.unpackMantissa b).isLt
  have hlt : (UnpackedFloat.unpackExponent b).toNat < 2048 := (UnpackedFloat.unpackExponent b).isLt
  have hbias : (Format.binary64.exponentBias : Int) + Format.binary64.mantissaBitsWithoutImplicit =
      1075 := rfl
  rw [UnpackedFloat.unpack] at h
  simp only [hbias] at h
  split_ifs at h with htop hinfinite hzero hfraction
  · obtain ⟨-, rfl, rfl⟩ := UnpackedFloat.finite.inj h
    have hexponent : (UnpackedFloat.unpackExponent b).toNat = 0 := congrArg BitVec.toNat hzero
    exact ⟨hm, by omega, by omega, by omega, .inr (by omega)⟩
  · obtain ⟨-, rfl, rfl⟩ := UnpackedFloat.finite.inj h
    have hleading := toNat_leading (UnpackedFloat.unpackMantissa b)
    have hpos : (UnpackedFloat.unpackExponent b).toNat ≠ 0 :=
      fun hnat => hzero (BitVec.eq_of_toNat_eq hnat)
    have hne : (UnpackedFloat.unpackExponent b).toNat ≠ 2047 :=
      fun hnat => htop (BitVec.eq_of_toNat_eq hnat)
    exact ⟨hm, by omega, by omega, by omega, .inl (by omega)⟩

end Patterns

section Doubles

variable {x y : Float}

theorem eq_of_unpack_eq (h : x.toModel.unpack = y.toModel.unpack) : x = y :=
  Float.toBits_inj.mp (UInt64.toBitVec_inj.mp
    ((UnpackedFloat.unpack_inj_of_valid x.toModel.valid y.toModel.valid).mp h))

theorem unpack_neg (x : Float) : (-x).toModel.unpack = x.toModel.unpack.neg := by
  have hneg := unpack_pack_neg x.toModel.toBits.toBitVec
  exact hneg

theorem neg_neg (x : Float) : - -x = x := by
  have hsign : ∀ sign : UnpackedFloat.Sign, - -sign = sign := by
    intro sign
    cases sign <;> rfl
  refine eq_of_unpack_eq ?_
  rw [unpack_neg, unpack_neg]
  cases x.toModel.unpack with
  | notANumber => rfl
  | infinity sign => simp [UnpackedFloat.neg, hsign]
  | zero sign => simp [UnpackedFloat.neg, hsign]
  | finite sign m e hm => simp [UnpackedFloat.neg, hsign]

theorem canonical_of_unpack {sign : UnpackedFloat.Sign} {m : Nat} {e : Int} {hm : 0 < m}
    (h : x.toModel.unpack = .finite sign m e hm) : Canonical m e :=
  canonical_of_unpack_eq h

end Doubles

end Calculator.Number
