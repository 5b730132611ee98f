import Calculator.Number.Decimal
import Calculator.Proofs.Doubles

/-!
Numbers that need no rounding. A decimal that is a double exactly is read as this double: its
quotient or product of whole numbers has at least as many bits as the mantissa, the further bits
are zeros, and rounding drops nothing else.
-/
namespace Calculator.Number

open Float.Model Float.Model.UnpackedFloat

section Bits

variable {m : Nat} {e : Int}

theorem log2_mul_two_pow (hm : m ≠ 0) (j : Nat) : (m * 2 ^ j).log2 = m.log2 + j := by
  have hne : m * 2 ^ j ≠ 0 := by positivity
  refine (Nat.log2_eq_iff hne).mpr ⟨?_, ?_⟩
  · rw [Nat.pow_add]
    exact Nat.mul_le_mul_right _ (Nat.log2_self_le hm)
  · rw [Nat.add_right_comm, Nat.pow_add]
    exact Nat.mul_lt_mul_of_pos_right Nat.lt_log2_self (by positivity)

theorem log2_mul_le {a b : Nat} (ha : a ≠ 0) (hb : b ≠ 0) :
    (a * b).log2 ≤ a.log2 + b.log2 + 1 := by
  have hlt : a * b < 2 ^ (a.log2 + 1) * 2 ^ (b.log2 + 1) :=
    Nat.mul_lt_mul_of_lt_of_lt Nat.lt_log2_self Nat.lt_log2_self
  rw [← Nat.pow_add] at hlt
  have hlog := (Nat.log2_lt (Nat.mul_ne_zero ha hb)).mpr hlt
  omega

/-- The exponent of a double is the one that its size asks for. -/
theorem Canonical.targetExponent_eq (h : Canonical m e) :
    Format.binary64.targetExponent (totalExponent m e) = e := by
  have hne : m ≠ 0 := h.pos.ne'
  have hbits : (Format.binary64.mantissaBits : Int) = 53 := rfl
  have hleast : Format.binary64.minExponent = -1074 := rfl
  have hlog : m.log2 < 53 := (Nat.log2_lt hne).mpr h.lt
  have hsmallest := h.smallest_le
  rw [Format.targetExponent, totalExponent, hbits, hleast]
  rcases h.leading with hlead | hlead
  · have hge : 52 ≤ m.log2 := (Nat.le_log2 hne).mpr hlead
    omega
  · omega

/-- Zeros are shifted out without a trace. -/
theorem repeat_shiftRightOne (m j : Nat) :
    j.repeat ExtendedMantissa.shiftRightOne ⟨m * 2 ^ j, false, false⟩ = ⟨m, false, false⟩ := by
  induction j generalizing m with
  | zero => simp [Nat.repeat]
  | succ j ih =>
    have hsplit : m * 2 ^ (j + 1) = m * 2 * 2 ^ j := by ring
    rw [Nat.repeat, hsplit, ih (m * 2)]
    simp [ExtendedMantissa.shiftRightOne]

theorem shiftToTargetExponent_exact (h : Canonical m e) (j : Nat) :
    shiftToTargetExponent .binary64 (m * 2 ^ j) (e - j) .exact = (⟨m, false, false⟩, e) := by
  have htotal : totalExponent (m * 2 ^ j) (e - j) = totalExponent m e := by
    rw [totalExponent, totalExponent, log2_mul_two_pow h.pos.ne']
    push_cast
    omega
  have hshift : (e - (e - j)).toNat = j := by omega
  rw [shiftToTargetExponent, htotal, h.targetExponent_eq]
  simp only [shiftToExponent, hshift]
  refine Prod.ext (repeat_shiftRightOne m j) ?_
  simp only
  omega

/-- Further bits that are zeros do not change the result of rounding. -/
theorem roundWithAccuracy_exact (h : Canonical m e) (sign : Sign) (j : Nat) :
    roundWithAccuracy .binary64 sign (m * 2 ^ j) (e - j) .exact = .finite sign m e h.pos := by
  have hfirst := shiftToTargetExponent_exact h j
  have hsecond := shiftToTargetExponent_exact h 0
  have hrounded : (ExtendedMantissa.mk m false false).roundedMantissa = m := rfl
  simp only [Nat.pow_zero, Nat.mul_one, Nat.cast_zero, Int.sub_zero] at hsecond
  unfold roundWithAccuracy
  simp only [hfirst, hrounded, hsecond]
  rw [dif_neg h.pos.ne']

end Bits

section Decimals

variable {m n : Nat} {e : Int} {x : Float}

/-- A quotient by a power of ten is found with bits to spare, and leaves no remainder. -/
theorem exists_divCore_exact (h : Canonical m e) (he : e = -(n : Int)) :
    ∃ j : Nat, divCore .binary64 (m * 5 ^ n) 0 (10 ^ n) 0 = (m * 2 ^ j, e - j, .exact) := by
  have hten : (10 : Nat) ^ n = 5 ^ n * 2 ^ n := by rw [← Nat.mul_pow]
  have hfive : (5 : Nat) ^ n ≠ 0 := by positivity
  have hdividend := log2_mul_le h.pos.ne' hfive
  have hdivisor := log2_mul_two_pow hfive n
  rw [← hten] at hdivisor
  have htarget : Format.binary64.targetExponent
      (totalExponent (m * 5 ^ n) 0 - totalExponent (10 ^ n) 0) ≤ e := by
    have hsame := h.targetExponent_eq
    rw [Format.targetExponent] at hsame ⊢
    rw [totalExponent] at hsame
    rw [totalExponent, totalExponent]
    omega
  unfold divCore
  generalize Format.binary64.targetExponent
    (totalExponent (m * 5 ^ n) 0 - totalExponent (10 ^ n) 0) = t at htarget ⊢
  have hmin : min ((0 : Int) - 0) t = t := by omega
  obtain ⟨j, hj⟩ : ∃ j : Nat, (0 - 0 - t).toNat = j + n := ⟨(0 - 0 - t).toNat - n, by omega⟩
  have hscaled : (m * 5 ^ n) <<< (j + n) = m * 2 ^ j * 10 ^ n := by
    rw [Nat.shiftLeft_eq, hten, Nat.pow_add]
    ring
  have hpos : 0 < (10 : Nat) ^ n := by positivity
  refine ⟨j, ?_⟩
  simp only [hmin, hj, hscaled, Nat.mul_div_cancel _ hpos, Nat.mul_mod_left, accuracyOfFraction,
    if_true, Prod.mk.injEq, true_and, and_true]
  omega

/-- A fraction that is a double is found by the division. -/
theorem ofScientific_fraction (h : Canonical m e) (he : e = -(n : Int)) (hn : n ≠ 0) :
    UnpackedFloat.ofScientific .binary64 (m * 5 ^ n) e = .finite .positive m e h.pos := by
  have hfive : 0 < (5 : Nat) ^ n := by positivity
  have hdigits : m * 5 ^ n ≠ 0 := (Nat.mul_pos h.pos hfive).ne'
  have hsmallest := h.smallest_le
  have hplaces : (-e).toNat = n := by omega
  obtain ⟨j, hquotient⟩ := exists_divCore_exact h he
  rw [UnpackedFloat.ofScientific, dif_neg hdigits]
  rw [if_neg (by simp only; omega), if_neg (by simp only; omega), if_neg (by omega)]
  simp only [UnpackedFloat.div, hplaces, hquotient]
  exact roundWithAccuracy_exact h .positive j

/-- A whole number that is a double is found by the multiplication. -/
theorem ofScientific_whole (h : Canonical m (n : Int)) :
    UnpackedFloat.ofScientific .binary64 (m * 2 ^ n) 0 = .finite .positive m n h.pos := by
  have htwo : 0 < (2 : Nat) ^ n := by positivity
  have hdigits : m * 2 ^ n ≠ 0 := (Nat.mul_pos h.pos htwo).ne'
  have hround := roundWithAccuracy_exact h .positive (n + 53)
  have hmantissa : (m * 2 ^ n) <<< 53 * 10 ^ 0 = m * 2 ^ (n + 53) := by
    rw [Nat.shiftLeft_eq, Nat.pow_add]
    ring
  have hexponent : (-53 + 0 : Int) = n - (n + 53 : Nat) := by omega
  rw [← hmantissa, ← hexponent] at hround
  rw [UnpackedFloat.ofScientific, dif_neg hdigits]
  rw [if_neg (by decide), if_neg (by simp only; omega), if_pos (by decide)]
  exact hround

theorem eq_ofModel_pack {hm : 0 < m} (h : x.toModel.unpack = .finite .positive m e hm) :
    Float.ofModel (Float.Model.pack (.finite .positive m e hm)) = x := by
  rw [← h]
  exact Float.ofBits_toBits x

theorem toFloat_fraction {hm : 0 < m} (h : x.toModel.unpack = .finite .positive m e hm)
    (he : e = -(n : Int)) (hn : n ≠ 0) : (Decimal.mk (m * 5 ^ n) e).toFloat = x := by
  have hcanonical := canonical_of_unpack h
  have hslow : ¬(m * 5 ^ n < 2 ^ 53 ∧ e.natAbs ≤ 22) := by
    rintro ⟨hdigits, hplaces⟩
    have hfive : 5 ^ 1 ≤ 5 ^ n := Nat.pow_le_pow_right (by decide) (by omega)
    have hproduct := Nat.mul_le_mul_left m hfive
    rcases hcanonical.leading with hlead | hlead
    · omega
    · omega
  have hsign : e < 0 := by omega
  have hnegated : Int.negOfNat e.natAbs = e := by
    rw [Int.negOfNat_eq]
    change -(e.natAbs : Int) = e
    omega
  rw [Decimal.toFloat, Float.ofScientific, dif_neg hslow]
  simp only [hsign, decide_true, if_true, hnegated]
  rw [Float.Model.ofScientific, ofScientific_fraction hcanonical he hn]
  exact eq_ofModel_pack h

/-- A whole number below `2 ^ 53` is a double as it is. -/
theorem unpack_toFloat (h : Canonical m 0) :
    m.toUInt64.toFloat.toModel = Float.Model.pack (.finite .positive m 0 h.pos) := by
  have hless := h.lt
  have hnat : m.toUInt64.toNat = m := by
    simp
    omega
  have hpos : compare (m : Int) 0 = .gt := Int.compare_eq_gt.mpr (by exact_mod_cast h.pos)
  have hexact := roundWithAccuracy_exact h .positive 0
  simp only [Nat.pow_zero, Nat.mul_one, Nat.cast_zero, Int.sub_zero] at hexact
  have hround : UnpackedFloat.round .binary64 .positive m 0 = .finite .positive m 0 h.pos := by
    rw [UnpackedFloat.round, h.targetExponent_eq]
    exact hexact
  change Float.Model.pack
    (UnpackedFloat.normalize .binary64 (m.toUInt64.toNat : Int) 0 .positive) = _
  rw [hnat, UnpackedFloat.normalize, hpos]
  simp only [Int.toNat_natCast, hround]

/-- Multiplying by one changes nothing. -/
theorem toFloat_mul_one {hm : 0 < m} (h : x.toModel.unpack = .finite .positive m 0 hm) :
    m.toUInt64.toFloat * Float.ofBits 0x3FF0000000000000 = x := by
  have hcanonical := canonical_of_unpack h
  have hone : (Float.ofBits 0x3FF0000000000000).toModel.unpack =
      .finite .positive (2 ^ 52) (-52) (by decide) := rfl
  have hself : (Float.Model.pack (.finite .positive m 0 hm)).unpack = .finite .positive m 0 hm := by
    rw [← h]
    exact unpack_pack_unpack _
  have hround := roundWithAccuracy_exact hcanonical .positive 52
  change Float.ofModel (Float.Model.mul _ _) = x
  rw [Float.Model.mul, unpack_toFloat hcanonical, hself, hone]
  simp only [UnpackedFloat.mul]
  exact (congrArg (fun u => Float.ofModel (Float.Model.pack u)) hround).trans (eq_ofModel_pack h)

theorem toFloat_whole {hm : 0 < m} (h : x.toModel.unpack = .finite .positive m n hm) :
    (Decimal.mk (m * 2 ^ n) 0).toFloat = x := by
  have hcanonical := canonical_of_unpack h
  rw [Decimal.toFloat, Float.ofScientific]
  by_cases hfast : m * 2 ^ n < 2 ^ 53 ∧ Int.natAbs 0 ≤ 22
  · have hzero : n = 0 := by
      by_contra hn
      have htwo : 2 ^ 1 ≤ 2 ^ n := Nat.pow_le_pow_right (by decide) (by omega)
      have hproduct := Nat.mul_le_mul_left m htwo
      rcases hcanonical.leading with hlead | hlead
      · omega
      · omega
    subst hzero
    rw [dif_pos hfast]
    simp only [Nat.pow_zero, Nat.mul_one]
    exact toFloat_mul_one h
  · rw [dif_neg hfast]
    change Float.ofModel (Float.Model.ofScientific (m * 2 ^ n) 0) = x
    rw [Float.Model.ofScientific, ofScientific_whole hcanonical]
    exact eq_ofModel_pack h

end Decimals

end Calculator.Number
