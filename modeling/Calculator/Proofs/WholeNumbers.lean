import Calculator.Proofs.Exact
import Calculator.Proofs.Rounding

/-!
Whole numbers up to `2 ^ 53` are doubles, and arithmetic on them is exact. A result is found as a
mantissa and an exponent that need not be those of a double yet; if the number is one, rounding only
moves zeros to or from the end of the mantissa. Zero has two doubles, and which of them a result is
does not matter for the number it stands for.
-/
namespace Calculator.Number

open Float.Model Float.Model.UnpackedFloat

section Forms

variable {m M : Nat} {e E : Int}

/-- Of two forms of one number the one with the smaller exponent has the longer mantissa. -/
theorem eq_mul_two_pow (h : (M : ℚ) * 2 ^ E = m * 2 ^ e) (hle : E ≤ e) :
    M = m * 2 ^ (e - E).toNat := by
  obtain ⟨j, rfl⟩ : ∃ j : Nat, e = E + j := ⟨(e - E).toNat, by omega⟩
  have hshift : (E + j - E).toNat = j := by omega
  rw [hshift]
  have hscale : (2 : ℚ) ^ E ≠ 0 := by positivity
  rw [zpow_add₀ (by norm_num), zpow_natCast, mul_left_comm, mul_comm] at h
  have hmantissa := mul_left_cancel₀ hscale h
  exact_mod_cast hmantissa

/-- The size of a number does not depend on its form. -/
theorem totalExponent_eq (hm : m ≠ 0) (h : (M : ℚ) * 2 ^ E = m * 2 ^ e) (hle : E ≤ e) :
    totalExponent M E = totalExponent m e := by
  rw [eq_mul_two_pow h hle, totalExponent, totalExponent, log2_mul_two_pow hm]
  push_cast
  omega

/-- With bits to spare, a double is found by rounding. -/
theorem roundWithAccuracy_eq (h : Canonical m e) (heq : (M : ℚ) * 2 ^ E = m * 2 ^ e) (hle : E ≤ e)
    (sign : Sign) : roundWithAccuracy .binary64 sign M E .exact = .finite sign m e h.pos := by
  have hexponent : e - ((e - E).toNat : Int) = E := by omega
  have hround := roundWithAccuracy_exact h sign (e - E).toNat
  rwa [hexponent, ← eq_mul_two_pow heq hle] at hround

/-- From any of its forms a double is found by rounding. -/
theorem round_eq (h : Canonical m e) (heq : (M : ℚ) * 2 ^ E = m * 2 ^ e) (hM : M ≠ 0)
    (sign : Sign) : UnpackedFloat.round .binary64 sign M E = .finite sign m e h.pos := by
  have htarget : Format.binary64.targetExponent (totalExponent M E) = e := by
    rw [← h.targetExponent_eq]
    rcases le_total E e with hle | hle
    · rw [totalExponent_eq h.pos.ne' heq hle]
    · rw [totalExponent_eq hM heq.symm hle]
  rw [UnpackedFloat.round, htarget]
  simp only [decreaseExponent, Nat.shiftLeft_eq]
  rcases le_total E e with hle | hle
  · have hshift : (E - e).toNat = 0 := by omega
    simp only [hshift, Nat.pow_zero, Nat.mul_one, Nat.cast_zero, Int.sub_zero]
    exact roundWithAccuracy_eq h heq hle sign
  · have hexponent : E - ((E - e).toNat : Int) = e := by omega
    rw [← eq_mul_two_pow heq.symm hle, hexponent]
    exact roundWithAccuracy_eq h rfl le_rfl sign

theorem canonical_two_pow : Canonical (2 ^ 52) 1 :=
  ⟨by decide, by decide, by decide, by decide, .inl le_rfl⟩

/-- A mantissa is shifted until its leading one is in place. -/
theorem exists_leading {n : Nat} (hpos : 0 < n) (hlt : n < 2 ^ 53) :
    ∃ j, n.log2 + j = 52 ∧ 2 ^ 52 ≤ n * 2 ^ j ∧ n * 2 ^ j < 2 ^ 53 := by
  have hlog : n.log2 < 53 := (Nat.log2_lt hpos.ne').mpr hlt
  obtain ⟨j, hj⟩ : ∃ j, n.log2 + j = 52 := ⟨52 - n.log2, by omega⟩
  refine ⟨j, hj, ?_, ?_⟩
  · rw [← hj, Nat.pow_add]
    exact Nat.mul_le_mul_right _ (Nat.log2_self_le hpos.ne')
  · have hless := Nat.mul_lt_mul_of_pos_right (@Nat.lt_log2_self n) (Nat.two_pow_pos j)
    rwa [← Nat.pow_add, Nat.add_right_comm, hj] at hless

/-- A whole number up to `2 ^ 53` has the form of a double. -/
theorem exists_canonical {n : Nat} (hpos : 0 < n) (hle : n ≤ 2 ^ 53) :
    ∃ m e, Canonical m e ∧ (m : ℚ) * 2 ^ e = n := by
  rcases Nat.lt_or_eq_of_le hle with hlt | rfl
  · obtain ⟨j, hj, hlow, hhigh⟩ := exists_leading hpos hlt
    refine ⟨n * 2 ^ j, -(j : Int), ⟨by omega, hhigh, by omega, by omega, .inl hlow⟩, ?_⟩
    rw [zpow_neg, zpow_natCast]
    push_cast
    field_simp
  · exact ⟨2 ^ 52, 1, canonical_two_pow, by norm_num⟩

end Forms

section Packing

variable {m : Nat} {e : Int}

/-- A double with a leading one keeps it in no field; all others have the exponent field zero. -/
theorem pack_finite (h : Canonical m e) (sign : Sign) (hm : 0 < m) :
    UnpackedFloat.pack .binary64 (.finite sign m e hm) =
      if m.log2 = 52 then
        packComponents .binary64 sign (BitVec.ofNat 11 (e + 1075).toNat) (BitVec.ofNat 52 m)
      else packComponents .binary64 sign 0#11 (BitVec.ofNat 52 m) := by
  have hlargest := h.le_largest
  have hfield : (e + (Format.binary64.exponentBias : Int) +
      (Format.binary64.mantissaBitsWithoutImplicit : Int)).toNat = (e + 1075).toNat := by
    change (e + 1023 + 52).toNat = (e + 1075).toNat
    omega
  have hbits : Format.binary64.mantissaBits = 53 := rfl
  have hfits : ¬2 ^ 11 ≤ (e + 1075).toNat + 1 := by omega
  rw [UnpackedFloat.pack]
  simp only [hfield, hbits, if_neg hfits, Nat.reduceEqDiff]

theorem unpack_pack_normal (h : Canonical m e) (hlead : 2 ^ 52 ≤ m) (sign : Sign) (hm : 0 < m) :
    (Float.Model.pack (.finite sign m e hm)).unpack = .finite sign m e hm := by
  have hsmallest := h.smallest_le
  have hlargest := h.le_largest
  have hless := h.lt
  have hlog : m.log2 = 52 := (Nat.log2_eq_iff hm.ne').mpr ⟨hlead, hless⟩
  have hbias : (Format.binary64.exponentBias : Int) + Format.binary64.mantissaBitsWithoutImplicit =
      1075 := rfl
  have hexponent : (BitVec.ofNat 11 (e + 1075).toNat).toNat = (e + 1075).toNat := by
    rw [BitVec.toNat_ofNat, Nat.mod_eq_of_lt (by omega)]
  have htop : BitVec.ofNat 11 (e + 1075).toNat ≠ -1#11 := by
    intro heq
    rw [heq] at hexponent
    change 2047 = (e + 1075).toNat at hexponent
    omega
  have hzero : BitVec.ofNat 11 (e + 1075).toNat ≠ 0#11 := by
    intro heq
    rw [heq] at hexponent
    change 0 = (e + 1075).toNat at hexponent
    omega
  have hmantissa : (1#1 ++ BitVec.ofNat 52 m).toNat = m := by
    rw [toNat_leading, BitVec.toNat_ofNat]
    omega
  change UnpackedFloat.unpack .binary64 (UnpackedFloat.pack .binary64 (.finite sign m e hm)) = _
  rw [pack_finite h, if_pos hlog]
  simp only [UnpackedFloat.unpack, unpackExponent_packComponents, unpackMantissa_packComponents,
    unpackSign_packComponents, Sign.ofBitVec_toBitVec, hbias, if_neg htop, if_neg hzero, hexponent,
    hmantissa]
  congr 1
  omega

theorem unpack_pack_subnormal (h : Canonical m e) (hlead : m < 2 ^ 52) (sign : Sign) (hm : 0 < m) :
    (Float.Model.pack (.finite sign m e hm)).unpack = .finite sign m e hm := by
  have hlast : e = -1074 := h.leading.resolve_left (by omega)
  have hlog : m.log2 ≠ 52 := ((Nat.log2_lt hm.ne').mpr hlead).ne
  have hbias : (Format.binary64.exponentBias : Int) + Format.binary64.mantissaBitsWithoutImplicit =
      1075 := rfl
  have hmantissa : (BitVec.ofNat 52 m).toNat = m := by
    rw [BitVec.toNat_ofNat, Nat.mod_eq_of_lt (by omega)]
  have hne : BitVec.ofNat 52 m ≠ 0#52 := by
    intro heq
    rw [heq] at hmantissa
    exact hm.ne hmantissa
  have htop : 0#11 ≠ -1#11 := by decide
  change UnpackedFloat.unpack .binary64 (UnpackedFloat.pack .binary64 (.finite sign m e hm)) = _
  rw [pack_finite h, if_neg hlog]
  simp only [UnpackedFloat.unpack, unpackExponent_packComponents, unpackMantissa_packComponents,
    unpackSign_packComponents, Sign.ofBitVec_toBitVec, hbias, if_neg htop, if_true, dif_neg hne,
    hmantissa]
  congr 1
  rw [hlast]
  rfl

end Packing

inductive Whole : UnpackedFloat → ℤ → Prop
  | zero (sign : Sign) : Whole (.zero sign) 0
  | finite {sign : Sign} {m : Nat} {e z : ℤ} {hm : 0 < m} : Canonical m e →
      (sign.apply m : ℚ) * 2 ^ e = z → Whole (.finite sign m e hm) z

section Signs

theorem sign_apply_neg (sign : Sign) (n : ℤ) : (-sign).apply n = -sign.apply n := by
  cases sign with
  | negative => exact (Int.neg_neg n).symm
  | positive => rfl

theorem sign_apply_mul (s t : Sign) (m n : ℤ) :
    (s * t).apply (m * n) = s.apply m * t.apply n := by
  cases s <;> cases t
  · exact (Int.neg_mul_neg m n).symm
  · exact (Int.neg_mul m n).symm
  · exact (Int.mul_neg m n).symm
  · rfl

/-- A sign is a factor. -/
theorem cast_sign_apply (sign : Sign) (n : ℤ) :
    ((sign.apply n : ℤ) : ℚ) = sign.apply 1 * n := by
  cases sign with
  | negative => simp [Sign.apply]
  | positive => simp [Sign.apply]

theorem natAbs_sign_apply (sign : Sign) (n : ℤ) : (sign.apply n).natAbs = n.natAbs := by
  cases sign with
  | negative => exact Int.natAbs_neg n
  | positive => rfl

/-- Without its sign a number is the magnitude of its form. -/
theorem magnitude_eq {sign : Sign} {m : Nat} {e z : ℤ} (h : (sign.apply m : ℚ) * 2 ^ e = z) :
    (m : ℚ) * 2 ^ e = z.natAbs := by
  have hscale : (0 : ℚ) < 2 ^ e := by positivity
  have hmantissa : |((sign.apply m : ℤ) : ℚ)| = m := by
    rw [← Int.cast_abs, ← Nat.cast_natAbs, natAbs_sign_apply, Int.natAbs_natCast]
  rw [Nat.cast_natAbs, Int.cast_abs, ← h, abs_mul, abs_of_pos hscale, hmantissa]

theorem sign_apply_natAbs {sign : Sign} {m : Nat} {e z : ℤ} (h : (sign.apply m : ℚ) * 2 ^ e = z) :
    sign.apply z.natAbs = z := by
  have hcast : ((sign.apply z.natAbs : ℤ) : ℚ) = z := by
    rw [cast_sign_apply, Int.cast_natCast, ← magnitude_eq h, ← mul_assoc, ← Int.cast_natCast,
      ← cast_sign_apply, h]
  exact_mod_cast hcast

end Signs

section WholeForms

variable {u v : UnpackedFloat} {a b z : ℤ} {x : Float}

theorem whole_unpack_iff : Whole x.toModel.unpack z ↔ rational? x = some (z : ℚ) := by
  rw [rational?]
  constructor
  · intro h
    generalize x.toModel.unpack = u at h
    cases h with
    | zero sign => simp
    | finite _ heq => simp [heq]
  · intro h
    cases hx : x.toModel.unpack with
    | infinity sign =>
      rw [hx] at h
      cases h
    | notANumber =>
      rw [hx] at h
      cases h
    | zero sign =>
      rw [hx] at h
      obtain rfl : 0 = z := by exact_mod_cast Option.some.inj h
      exact .zero sign
    | finite sign m e hm =>
      rw [hx] at h
      exact .finite (canonical_of_unpack hx) (Option.some.inj h)

/-- Packing keeps the number. -/
theorem Whole.rational?_pack (h : Whole u z) :
    rational? (Float.ofModel (Float.Model.pack u)) = some (z : ℚ) := by
  refine whole_unpack_iff.mp ?_
  change Whole (Float.Model.pack u).unpack z
  cases h with
  | zero sign =>
    change Whole (UnpackedFloat.unpack .binary64 (packedZero .binary64 sign)) 0
    rw [unpack_packedZero]
    exact .zero sign
  | @finite sign m e z hm hcanonical heq =>
    rcases Nat.lt_or_ge m (2 ^ 52) with hlead | hlead
    · rw [unpack_pack_subnormal hcanonical hlead]
      exact .finite hcanonical heq
    · rw [unpack_pack_normal hcanonical hlead]
      exact .finite hcanonical heq

/-- A magnitude with a sign. -/
theorem Canonical.whole {m n : Nat} {e : ℤ} {hm : 0 < m} (h : Canonical m e)
    (hvalue : (m : ℚ) * 2 ^ e = n) (sign : Sign) :
    Whole (.finite sign m e hm) (sign.apply n) := by
  refine .finite h ?_
  rw [cast_sign_apply, Int.cast_natCast, mul_assoc, hvalue, cast_sign_apply sign n,
    Int.cast_natCast]

theorem whole_round {M n : Nat} {E : ℤ} (heq : (M : ℚ) * 2 ^ E = n) (hpos : 0 < n)
    (hle : n ≤ 2 ^ 53) (sign : Sign) :
    Whole (UnpackedFloat.round .binary64 sign M E) (sign.apply n) := by
  obtain ⟨m, e, hcanonical, hvalue⟩ := exists_canonical hpos hle
  have hM : M ≠ 0 := by
    rintro rfl
    rw [Nat.cast_zero, zero_mul] at heq
    exact hpos.ne (by exact_mod_cast heq)
  rw [round_eq hcanonical (heq.trans hvalue.symm) hM]
  exact hcanonical.whole hvalue sign

/-- A sum or a difference is found as a mantissa with a sign of its own. -/
theorem whole_normalize {M E : ℤ} (heq : (M : ℚ) * 2 ^ E = z) (hle : z.natAbs ≤ 2 ^ 53)
    (zeroSign : Sign) : Whole (normalize .binary64 M E zeroSign) z := by
  have hscale : (0 : ℚ) < 2 ^ E := by positivity
  have hmagnitude : (M.natAbs : ℚ) * 2 ^ E = z.natAbs := by
    rw [Nat.cast_natAbs, Nat.cast_natAbs, Int.cast_abs, Int.cast_abs, ← heq, abs_mul,
      abs_of_pos hscale]
  rw [UnpackedFloat.normalize]
  rcases lt_trichotomy M 0 with hneg | rfl | hpos
  · have hz : z < 0 := by
      have hproduct := mul_neg_of_neg_of_pos (Int.cast_lt_zero.mpr hneg) hscale
      rw [heq] at hproduct
      exact_mod_cast hproduct
    have hM : (-M).toNat = M.natAbs := by omega
    have hsign : Sign.negative.apply z.natAbs = z := by
      change -(z.natAbs : ℤ) = z
      omega
    have hround := whole_round hmagnitude (by omega) hle .negative
    rw [Int.compare_eq_lt.mpr hneg]
    simp only [hM]
    rwa [hsign] at hround
  · rw [Int.cast_zero, zero_mul] at heq
    obtain rfl : 0 = z := by exact_mod_cast heq
    exact .zero zeroSign
  · have hz : 0 < z := by
      have hproduct := mul_pos (Int.cast_pos.mpr hpos) hscale
      rw [heq] at hproduct
      exact_mod_cast hproduct
    have hM : M.toNat = M.natAbs := by omega
    have hsign : Sign.positive.apply z.natAbs = z := by
      change (z.natAbs : ℤ) = z
      omega
    have hround := whole_round hmagnitude (by omega) hle .positive
    rw [Int.compare_eq_gt.mpr hpos]
    simp only [hM]
    rwa [hsign] at hround

theorem Whole.neg (h : Whole u z) : Whole u.neg (-z) := by
  cases h with
  | zero sign => exact .zero (-sign)
  | @finite sign m e z hm hcanonical heq =>
    refine .finite hcanonical ?_
    rw [sign_apply_neg, Int.cast_neg, Int.cast_neg, neg_mul, heq]

/-- Bringing a mantissa to a smaller exponent keeps the number. -/
theorem sign_apply_shiftLeft (sign : Sign) (m : Nat) {e t : ℤ} (hle : t ≤ e) :
    ((sign.apply (m <<< (e - t).toNat : Nat) : ℤ) : ℚ) * 2 ^ t = (sign.apply m : ℚ) * 2 ^ e := by
  obtain ⟨j, rfl⟩ : ∃ j : Nat, e = t + j := ⟨(e - t).toNat, by omega⟩
  have hshift : (t + j - t).toNat = j := by omega
  rw [hshift, Nat.shiftLeft_eq, cast_sign_apply, cast_sign_apply sign m, zpow_add₀ (by norm_num),
    zpow_natCast]
  push_cast
  ring

theorem Whole.add (hu : Whole u a) (hv : Whole v b) (hle : (a + b).natAbs ≤ 2 ^ 53) :
    Whole (UnpackedFloat.add .binary64 u v) (a + b) := by
  cases hu with
  | zero sign =>
    rw [zero_add]
    cases hv with
    | zero sign' =>
      simp only [UnpackedFloat.add]
      split_ifs
      · exact .zero sign
      · exact .zero .positive
    | finite hcanonical heq => exact .finite hcanonical heq
  | @finite sign m e a hm hcanonical heq =>
    cases hv with
    | zero sign' =>
      rw [add_zero]
      exact .finite hcanonical heq
    | @finite sign' m' e' b hm' hcanonical' heq' =>
      refine whole_normalize ?_ hle .positive
      rw [Int.cast_add, add_mul, sign_apply_shiftLeft sign m (min_le_left e e'),
        sign_apply_shiftLeft sign' m' (min_le_right e e'), heq, heq', Int.cast_add]

/-- Taking a number away is adding it with the other sign. -/
theorem sub_eq_add_neg (u v : UnpackedFloat) :
    UnpackedFloat.sub .binary64 u v = UnpackedFloat.add .binary64 u v.neg := by
  cases u <;> cases v <;> try rfl
  rename_i sign m e hm sign' m' e' hm'
  simp only [UnpackedFloat.sub, UnpackedFloat.neg, UnpackedFloat.add, sign_apply_neg,
    Int.sub_eq_add_neg]

theorem Whole.sub (hu : Whole u a) (hv : Whole v b) (hle : (a - b).natAbs ≤ 2 ^ 53) :
    Whole (UnpackedFloat.sub .binary64 u v) (a - b) := by
  rw [Number.sub_eq_add_neg, Int.sub_eq_add_neg]
  rw [Int.sub_eq_add_neg] at hle
  exact hu.add hv.neg hle

/-- A whole number other than zero has a leading one. -/
theorem Canonical.leading_of_whole {m n : Nat} {e : ℤ} (h : Canonical m e)
    (heq : (m : ℚ) * 2 ^ e = n) : 2 ^ 52 ≤ m := by
  rcases h.leading with hlead | hlast
  · exact hlead
  · exfalso
    have hpos : 0 < n := by
      have hmantissa : (0 : ℚ) < m := by exact_mod_cast h.pos
      have hproduct : (0 : ℚ) < m * 2 ^ e := by positivity
      rw [heq] at hproduct
      exact_mod_cast hproduct
    have hless : (m : ℚ) < 2 ^ 53 := by exact_mod_cast h.lt
    have hscale : (2 : ℚ) ^ (-1074 : ℤ) ≤ 2 ^ (-53 : ℤ) :=
      zpow_le_zpow_right₀ (by norm_num) (by norm_num)
    have hone : (1 : ℚ) ≤ n := by exact_mod_cast hpos
    rw [hlast] at heq
    have hproduct : (m : ℚ) * 2 ^ (-1074 : ℤ) < 2 ^ 53 * 2 ^ (-53 : ℤ) :=
      mul_lt_mul hless hscale (by positivity) (by positivity)
    rw [heq] at hproduct
    norm_num at hproduct
    linarith

/-- The mantissas of whole numbers are long, so that their product has bits to spare. -/
theorem whole_roundWithAccuracy {M n : Nat} {E : ℤ} (heq : (M : ℚ) * 2 ^ E = n)
    (hM : 2 ^ 53 ≤ M) (hle : n ≤ 2 ^ 53) (sign : Sign) :
    Whole (roundWithAccuracy .binary64 sign M E .exact) (sign.apply n) := by
  have hpos : 0 < n := by
    have hscale : (0 : ℚ) < 2 ^ E := by positivity
    have hmantissa : (0 : ℚ) < M := by exact_mod_cast (by omega : 0 < M)
    have hproduct := mul_pos hmantissa hscale
    rw [heq] at hproduct
    exact_mod_cast hproduct
  obtain ⟨m, e, hcanonical, hvalue⟩ := exists_canonical hpos hle
  have hexponent : E ≤ e := by
    by_contra hlt
    have hless := hcanonical.lt
    have hlong := eq_mul_two_pow (hvalue.trans heq.symm) (le_of_not_ge hlt)
    have hshifted := Nat.le_mul_of_pos_right M (Nat.two_pow_pos (E - e).toNat)
    omega
  rw [roundWithAccuracy_eq hcanonical (heq.trans hvalue.symm) hexponent]
  exact hcanonical.whole hvalue sign

theorem Whole.mul (hu : Whole u a) (hv : Whole v b) (hle : (a * b).natAbs ≤ 2 ^ 53) :
    Whole (UnpackedFloat.mul .binary64 u v) (a * b) := by
  cases hu with
  | zero sign =>
    rw [zero_mul]
    cases hv with
    | zero sign' => exact .zero (sign * sign')
    | finite _ _ => exact .zero (sign * _)
  | @finite sign m e a hm hcanonical heq =>
    cases hv with
    | zero sign' =>
      rw [mul_zero]
      exact .zero (sign * sign')
    | @finite sign' m' e' b hm' hcanonical' heq' =>
      have hleft := magnitude_eq heq
      have hright := magnitude_eq heq'
      have hsigned : (sign * sign').apply (a * b).natAbs = a * b := by
        rw [Int.natAbs_mul, Int.natCast_mul, sign_apply_mul, sign_apply_natAbs heq,
          sign_apply_natAbs heq']
      have hmagnitude : ((m * m' : Nat) : ℚ) * 2 ^ (e + e') = (a * b).natAbs := by
        rw [Int.natAbs_mul, Nat.cast_mul, Nat.cast_mul, ← hleft, ← hright,
          zpow_add₀ (by norm_num)]
        ring
      have hlong : 2 ^ 53 ≤ m * m' := by
        have hproduct := Nat.mul_le_mul (hcanonical.leading_of_whole hleft)
          (hcanonical'.leading_of_whole hright)
        omega
      have hround := whole_roundWithAccuracy hmagnitude hlong hle (sign * sign')
      rwa [hsigned] at hround

end WholeForms

section Doubles

variable {x y : Float} {a b : ℤ}

theorem rational?_neg (hx : rational? x = some (a : ℚ)) : rational? (-x) = some ((-a : ℤ) : ℚ) :=
  (whole_unpack_iff.mpr hx).neg.rational?_pack

theorem rational?_add (hx : rational? x = some (a : ℚ)) (hy : rational? y = some (b : ℚ))
    (hle : (a + b).natAbs ≤ 2 ^ 53) : rational? (x + y) = some ((a + b : ℤ) : ℚ) :=
  ((whole_unpack_iff.mpr hx).add (whole_unpack_iff.mpr hy) hle).rational?_pack

theorem rational?_sub (hx : rational? x = some (a : ℚ)) (hy : rational? y = some (b : ℚ))
    (hle : (a - b).natAbs ≤ 2 ^ 53) : rational? (x - y) = some ((a - b : ℤ) : ℚ) :=
  ((whole_unpack_iff.mpr hx).sub (whole_unpack_iff.mpr hy) hle).rational?_pack

theorem rational?_mul (hx : rational? x = some (a : ℚ)) (hy : rational? y = some (b : ℚ))
    (hle : (a * b).natAbs ≤ 2 ^ 53) : rational? (x * y) = some ((a * b : ℤ) : ℚ) :=
  ((whole_unpack_iff.mpr hx).mul (whole_unpack_iff.mpr hy) hle).rational?_pack

theorem rational?_toUInt64 {n : Nat} (hlt : n < 2 ^ 53) :
    rational? n.toUInt64.toFloat = some ((n : ℤ) : ℚ) := by
  have hnat : n.toUInt64.toNat = n := by
    simp
    omega
  have hform : ((n : ℤ) : ℚ) * 2 ^ (0 : ℤ) = (n : ℤ) := by simp
  change rational? (Float.ofModel (Float.Model.pack
    (normalize .binary64 (n.toUInt64.toNat : ℤ) 0 .positive))) = _
  rw [hnat]
  exact (whole_normalize hform (by omega) .positive).rational?_pack

theorem rational?_one : rational? (Float.ofBits 0x3FF0000000000000) = some ((1 : ℤ) : ℚ) := by
  have hone : (Float.ofBits 0x3FF0000000000000).toModel.unpack =
      .finite .positive (2 ^ 52) (-52) (by decide) := rfl
  rw [rational?, hone]
  norm_num [Sign.apply]

theorem toFloat_eq_ofNat (n : Nat) : (Decimal.mk n 0).toFloat = Float.ofNat n := rfl

theorem unpack_two_pow :
    (Float.ofModel (Float.Model.pack (.finite .positive (2 ^ 52) 1 (by decide)))).toModel.unpack =
      .finite .positive (2 ^ 52) (1 : Nat) (by decide) :=
  unpack_pack_normal canonical_two_pow le_rfl .positive _

/-- A whole number without a sign is read as it is. -/
theorem rational?_ofNat {n : Nat} (hle : n ≤ 2 ^ 53) :
    rational? (Float.ofNat n) = some ((n : ℤ) : ℚ) := by
  rcases Nat.lt_or_eq_of_le hle with hlt | rfl
  · have hshort : Float.ofNat n = n.toUInt64.toFloat * Float.ofBits 0x3FF0000000000000 := by
      have hfast : n < 2 ^ 53 ∧ 0 ≤ 22 := ⟨hlt, by decide⟩
      rw [Float.ofNat]
      change Float.ofScientific n false 0 = _
      rw [Float.ofScientific, dif_pos hfast]
      rfl
    have hproduct := rational?_mul (rational?_toUInt64 hlt) rational?_one (by omega)
    rwa [← hshort, Int.mul_one] at hproduct
  · rw [← toFloat_eq_ofNat]
    have hsplit : 2 ^ 53 = 2 ^ 52 * 2 ^ 1 := by decide
    rw [hsplit, toFloat_whole unpack_two_pow, rational?, unpack_two_pow]
    norm_num [Sign.apply]

/-- A whole number that is read as it is keeps its sign. -/
theorem rational?_ofSigned {n : Nat} (h : rational? (Float.ofNat n) = some ((n : ℤ) : ℚ))
    (sign : Sign) : rational? (ofSigned sign n) = some ((sign.apply n : ℤ) : ℚ) := by
  cases sign with
  | negative => exact rational?_neg h
  | positive => exact h

theorem remainder?_eq_none_iff_of_whole {x : Float} (hy : rational? y = some (b : ℚ)) :
    remainder? x y = none ↔ b = 0 := by
  rw [remainder?_eq_none_iff, hy, Option.map_some, towardZero_intCast, Option.some.injEq]

end Doubles

end Calculator.Number
