import Calculator.Postfix.Execution
import Calculator.Proofs.WholeNumbers

/-!
The remainder is exact for all finite doubles. The whole part of a double is a mantissa of at most
fifty-three bits in front of zeros, and what is left of one such number when multiples of another
are taken from it is of this form again: it keeps the zeros that both have, and the bits in front of
them are no more than those of one of the two. So it is a double, however far the two are apart.
-/
namespace Calculator.Number

open Float.Model Float.Model.UnpackedFloat

/-- A mantissa of at most fifty-three bits in front of zeros, no more of them than a double has
room for. -/
def Scaled (n : ℕ) : Prop := ∃ m k, n = m * 2 ^ k ∧ m < 2 ^ 53 ∧ k ≤ 971

section Forms

variable {m a b n : ℕ} {e : ℤ}

theorem scaled_wholePart (h : Canonical m e) : Scaled (wholePart m e) := by
  have hlargest := h.le_largest
  unfold wholePart
  rw [Nat.shiftLeft_eq, Nat.shiftRight_eq_div_pow]
  obtain ⟨j, rfl | rfl⟩ := e.eq_nat_or_neg
  · refine ⟨m, j, ?_, h.lt, by omega⟩
    have hnone : (-(j : ℤ)).toNat = 0 := by omega
    rw [hnone, Int.toNat_natCast, Nat.pow_zero, Nat.div_one]
  · refine ⟨m / 2 ^ j, 0, ?_, (Nat.div_le_self m _).trans_lt h.lt, by omega⟩
    have hnone : (-(j : ℤ)).toNat = 0 := by omega
    rw [hnone, Int.neg_neg, Int.toNat_natCast, Nat.pow_zero, Nat.mul_one, Nat.mul_one]

/-- A remainder of scaled numbers is scaled: it ends in the zeros that both of them end in. -/
theorem Scaled.mod (ha : Scaled a) (hb : Scaled b) (hpos : 0 < b) : Scaled (a % b) := by
  obtain ⟨m, j, rfl, hm, hj⟩ := ha
  obtain ⟨n, k, rfl, hn, hk⟩ := hb
  rcases le_total j k with hle | hle
  · obtain ⟨i, rfl⟩ := Nat.exists_eq_add_of_le hle
    refine ⟨m % (n * 2 ^ i), j, ?_, (Nat.mod_le m _).trans_lt hm, hj⟩
    rw [Nat.add_comm, Nat.pow_add, ← Nat.mul_assoc, Nat.mul_mod_mul_right]
  · obtain ⟨i, rfl⟩ := Nat.exists_eq_add_of_le hle
    have hmantissa : 0 < n := Nat.pos_of_mul_pos_right hpos
    refine ⟨m * 2 ^ i % n, k, ?_, (Nat.mod_lt _ hmantissa).trans hn, hk⟩
    rw [Nat.add_comm, Nat.pow_add, ← Nat.mul_assoc, Nat.mul_mod_mul_right]

/-- A large scaled number has the form of a double: there are zeros enough to bring its leading one
in place. -/
theorem Scaled.exists_canonical (h : Scaled n) (hlarge : 2 ^ 53 < n) :
    ∃ m k : ℕ, Canonical m k ∧ 2 ^ 52 ≤ m ∧ m * 2 ^ k = n := by
  obtain ⟨m, k, rfl, hm, hk⟩ := h
  have hpos : 0 < m := Nat.pos_of_ne_zero fun hzero => by simp [hzero] at hlarge
  obtain ⟨j, hj, hlow, hhigh⟩ := exists_leading hpos hm
  have hzeros : j ≤ k := by
    by_contra hless
    have hshort : m * 2 ^ k < 2 ^ (m.log2 + 1) * 2 ^ k :=
      Nat.mul_lt_mul_of_pos_right Nat.lt_log2_self (Nat.two_pow_pos k)
    rw [← Nat.pow_add] at hshort
    have hbound : 2 ^ (m.log2 + 1 + k) ≤ 2 ^ 53 := Nat.pow_le_pow_right (by decide) (by omega)
    omega
  obtain ⟨i, rfl⟩ := Nat.exists_eq_add_of_le hzeros
  refine ⟨m * 2 ^ j, i, ⟨by omega, hhigh, by omega, by omega, .inl hlow⟩, hlow, ?_⟩
  rw [Nat.pow_add, Nat.mul_assoc]

theorem Scaled.rational?_ofNat (h : Scaled n) : rational? (Float.ofNat n) = some ((n : ℤ) : ℚ) := by
  rcases Nat.lt_or_ge (2 ^ 53) n with hlarge | hsmall
  · obtain ⟨m, k, hcanonical, hlead, rfl⟩ := h.exists_canonical hlarge
    obtain ⟨x, hx⟩ : ∃ x : Float, x.toModel.unpack = .finite .positive m k hcanonical.pos :=
      ⟨.ofModel (.pack (.finite .positive m k hcanonical.pos)),
        unpack_pack_normal hcanonical hlead .positive hcanonical.pos⟩
    rw [← toFloat_eq_ofNat, toFloat_whole hx, rational?, hx]
    simp [Sign.apply]
  · exact Number.rational?_ofNat hsmall

end Forms

section Doubles

variable {x a b : Float} {α β : ℚ}

theorem isFinite_iff_exists_rational : x.isFinite = true ↔ ∃ q, rational? x = some q := by
  change x.toModel.unpack.isFinite = true ↔ _
  rw [rational?]
  cases x.toModel.unpack <;> simp [UnpackedFloat.isFinite]

theorem natCast_tmod (n : ℕ) (b : ℤ) : (n : ℤ).tmod b = (n % b.natAbs : ℕ) := by
  cases b <;> rfl

/-- A remainder takes its sign from the dividend. -/
theorem sign_apply_tmod (sign : Sign) (n : ℕ) (b : ℤ) :
    (sign.apply n : ℤ).tmod b = sign.apply (n % b.natAbs : ℕ) := by
  cases sign with
  | positive => exact natCast_tmod n b
  | negative =>
    change (-(n : ℤ)).tmod b = -_
    rw [Int.neg_tmod, natCast_tmod]

/-- The whole part of a double has its sign. -/
theorem towardZero_eq_sign_apply (sign : Sign) (m : ℕ) (e : ℤ) :
    towardZero ((sign.apply m : ℤ) * 2 ^ e) = sign.apply (wholePart m e) := by
  have hscale : (0 : ℚ) ≤ m * 2 ^ e := by positivity
  have hfloor : ⌊(m : ℚ) * 2 ^ e⌋ = wholePart m e := by
    rw [wholePart_eq_floor, Int.natCast_floor_eq_floor hscale]
  cases sign with
  | positive =>
    change towardZero (((m : ℤ) : ℚ) * 2 ^ e) = (wholePart m e : ℤ)
    rw [Int.cast_natCast, towardZero, if_neg hscale.not_gt, hfloor]
  | negative =>
    change towardZero (((-(m : ℤ) : ℤ) : ℚ) * 2 ^ e) = -(wholePart m e : ℤ)
    rw [Int.cast_neg, Int.cast_natCast, neg_mul, towardZero]
    split
    · rw [Int.ceil_neg, hfloor]
    · rename_i hnot
      have hzero : (m : ℚ) * 2 ^ e = 0 := by linarith
      have hnone : (wholePart m e : ℤ) = 0 := by
        rw [← hfloor, hzero, Int.floor_zero]
      rw [hzero, hnone]
      simp

/-- A double that is a number is a zero, or a mantissa with a sign and an exponent. -/
theorem cases_of_rational (h : rational? x = some α) :
    (∃ sign, x.toModel.unpack = .zero sign ∧ α = 0) ∨
      ∃ sign m e hm, x.toModel.unpack = .finite sign m e hm ∧ α = (sign.apply m : ℤ) * 2 ^ e := by
  rw [rational?] at h
  cases hu : x.toModel.unpack with
  | infinity sign => simp [hu] at h
  | notANumber => simp [hu] at h
  | zero sign => exact .inl ⟨sign, rfl, by simpa [hu] using h.symm⟩
  | finite sign m e hm => exact .inr ⟨sign, m, e, hm, rfl, by simpa [hu] using h.symm⟩

theorem rational?_remainderBy_scaled (ha : rational? a = some α) {B : ℤ}
    (hscaled : Scaled B.natAbs) (hne : B ≠ 0) :
    rational? (remainderBy a B.natAbs) = some (((towardZero α).tmod B : ℤ) : ℚ) := by
  rcases cases_of_rational ha with ⟨sign, hu, rfl⟩ | ⟨sign, m, e, hm, hu, rfl⟩
  · simp only [remainderBy, hu]
    simpa [towardZero] using ha
  · have hleft : Scaled (wholePart m e % B.natAbs) :=
      (scaled_wholePart (canonical_of_unpack hu)).mod hscaled (Int.natAbs_pos.mpr hne)
    rw [towardZero_eq_sign_apply, sign_apply_tmod]
    simp only [remainderBy, hu]
    exact rational?_ofSigned hleft.rational?_ofNat sign

/-- Where the divisor has a whole part, the remainder is that of the whole parts. -/
theorem exists_remainder (ha : rational? a = some α) (hb : rational? b = some β)
    (hne : towardZero β ≠ 0) :
    ∃ r, remainder? a b = some r ∧
      rational? r = some (((towardZero α).tmod (towardZero β) : ℤ) : ℚ) := by
  rcases cases_of_rational hb with ⟨sign, hu, rfl⟩ | ⟨sign, m, e, hm, hu, rfl⟩
  · exact absurd (by simp [towardZero]) hne
  · have hpart : (towardZero (((sign.apply m : ℤ) : ℚ) * 2 ^ e)).natAbs = wholePart m e := by
      rw [towardZero_eq_sign_apply, natAbs_sign_apply, Int.natAbs_natCast]
    have hscaled := scaled_wholePart (canonical_of_unpack hu)
    have hpos : wholePart m e ≠ 0 := by
      rw [← hpart]
      exact Int.natAbs_ne_zero.mpr hne
    rw [← hpart] at hscaled hpos
    refine ⟨remainderBy a (wholePart m e), ?_, ?_⟩
    · simp only [remainder?, hu]
      exact if_neg (hpart ▸ hpos)
    · rw [← hpart]
      exact rational?_remainderBy_scaled ha hscaled hne

/-- The whole part of a number is zero or has its sign. -/
theorem sign_of_towardZero (q : ℚ) :
    (0 < towardZero q → 0 < q) ∧ (towardZero q < 0 → q < 0) := by
  unfold towardZero
  split
  · rename_i hneg
    refine ⟨fun hpos => ?_, fun _ => hneg⟩
    have hceil : ⌈q⌉ ≤ 0 := Int.ceil_le.mpr (by exact_mod_cast hneg.le)
    omega
  · rename_i hnot
    have hfloor : 0 ≤ ⌊q⌋ := Int.floor_nonneg.mpr (not_lt.mp hnot)
    refine ⟨fun hpos => ?_, fun hless => by omega⟩
    exact lt_of_lt_of_le (by exact_mod_cast hpos) (Int.floor_le q)

/-- A remainder other than zero has the sign of the dividend. -/
theorem sign_of_tmod (A B : ℤ) : (0 < A.tmod B → 0 < A) ∧ (A.tmod B < 0 → A < 0) := by
  have hsign := Int.sign_tmod A B
  constructor
  · intro hpos
    rw [Int.sign_eq_one_of_pos hpos] at hsign
    split at hsign
    · cases hsign
    · exact Int.sign_eq_one_iff_pos.mp hsign.symm
  · intro hneg
    rw [Int.sign_eq_neg_one_of_neg hneg] at hsign
    split at hsign
    · cases hsign
    · exact Int.sign_eq_neg_one_iff_neg.mp hsign.symm

theorem abs_tmod_lt {A B : ℤ} (hB : B ≠ 0) : |A.tmod B| < |B| := by
  have hless := Nat.mod_lt A.natAbs (Int.natAbs_pos.mpr hB)
  rw [← Int.natAbs_tmod] at hless
  rw [Int.abs_eq_natAbs, Int.abs_eq_natAbs]
  exact_mod_cast hless

end Doubles

end Calculator.Number

namespace Calculator.Postfix

open Arithmetic Number
open Float.Model.UnpackedFloat (Sign)

theorem applyBinary_of_mod {op : Token} (hop : op.kind = .mod) (a b : Float) (r : Recorder) :
    applyBinary op a b r =
      match remainder? a b with
      | none => pure ⟨.error (.moduloByZero op.position), r⟩
      | some x => do return ⟨.ok x, ← r.record (operationStep op a b x)⟩ := by
  rw [applyBinary, apply, hop]
  cases remainder? a b with
  | none => rfl
  | some x => rfl

/-- The remainder of two finite numbers is that of their whole parts. It is refused, without a step,
exactly if the divisor has none. Otherwise it is a whole number smaller than the whole part of the
divisor, is zero or has the sign of the dividend, and differs from the whole part of the dividend by
a multiple of that of the divisor; and it is exact, whatever the two magnitudes are. -/
theorem applyBinary_remainder_exact {op : Token} (hop : op.kind = .mod) {a b : Float}
    (ha : a.isFinite = true) (hb : b.isFinite = true) (r : Recorder) :
    ∃ α β : ℚ, rational? a = some α ∧ rational? b = some β ∧
      (applyBinary op a b r = pure ⟨.error (.moduloByZero op.position), r⟩ ↔ |β| < 1) ∧
      (¬|β| < 1 → ∃ (x : Float) (z : ℤ), (applyBinary op a b r).value.answer = .ok x ∧
        x.isFinite = true ∧ rational? x = some (z : ℚ) ∧ |z| < |towardZero β| ∧
        (z = 0 ∨ 0 < z ∧ 0 < α ∨ z < 0 ∧ α < 0) ∧ towardZero β ∣ towardZero α - z ∧
        z = (towardZero α).tmod (towardZero β)) := by
  obtain ⟨α, hα⟩ := isFinite_iff_exists_rational.mp ha
  obtain ⟨β, hβ⟩ := isFinite_iff_exists_rational.mp hb
  have hnone : remainder? a b = none ↔ |β| < 1 := by
    rw [remainder?_eq_none_iff, hβ, Option.map_some, Option.some.injEq, towardZero_eq_zero_iff]
  refine ⟨α, β, hα, hβ, ?_, fun hlarge => ?_⟩
  · rw [applyBinary_of_mod hop, ← hnone]
    cases remainder? a b with
    | none => exact iff_of_true rfl rfl
    | some x =>
      refine iff_of_false (fun heq => ?_) (by simp)
      have hanswer := congrArg (fun o => o.value.answer) heq
      cases hanswer
  · have hne : towardZero β ≠ 0 := fun hzero => hlarge ((towardZero_eq_zero_iff β).mp hzero)
    obtain ⟨x, hx, hvalue⟩ := exists_remainder hα hβ hne
    have hsign := sign_of_tmod (towardZero α) (towardZero β)
    have hwhole := sign_of_towardZero α
    refine ⟨x, _, ?_, isFinite_iff_exists_rational.mpr ⟨_, hvalue⟩, hvalue, abs_tmod_lt hne, ?_,
      Int.dvd_self_sub_tmod, rfl⟩
    · rw [applyBinary_of_mod hop, hx]
      rfl
    · rcases lt_trichotomy ((towardZero α).tmod (towardZero β)) 0 with hneg | hzero | hpos
      · exact .inr (.inr ⟨hneg, hwhole.2 (hsign.2 hneg)⟩)
      · exact .inl hzero
      · exact .inr (.inl ⟨hpos, hwhole.1 (hsign.1 hpos)⟩)

/-- Taking away three and a half from minus two to the thousandth leaves minus one, where a quotient
would long have lost its last digits; a divisor between minus one and one is refused. -/
theorem applyBinary_remainder_hugeDividend :
    (∃ x, (applyBinary ⟨.mod, "%", .start⟩ (.ofBits 0xFE70000000000000)
        (.ofBits 0x400C000000000000) (.new false)).value.answer = .ok x ∧
      rational? x = some (-1 : ℤ)) ∧
    applyBinary ⟨.mod, "%", .start⟩ (.ofBits 0xFE70000000000000) (.ofBits 0xBFE8000000000000)
      (.new false) = pure ⟨.error (.moduloByZero .start), .new false⟩ := by
  have hop : (⟨.mod, "%", .start⟩ : Token).kind = .mod := rfl
  have hdividend : (Float.ofBits 0xFE70000000000000).isFinite = true := rfl
  have hdivisor : (Float.ofBits 0x400C000000000000).isFinite = true := rfl
  have hsmall : (Float.ofBits 0xBFE8000000000000).isFinite = true := rfl
  have hhuge : rational? (.ofBits 0xFE70000000000000) =
      some (((Sign.negative.apply (2 ^ 52 : ℕ) : ℤ) : ℚ) * 2 ^ (948 : ℤ)) := rfl
  have hlarge : rational? (.ofBits 0x400C000000000000) =
      some (((Sign.positive.apply (7 * 2 ^ 50 : ℕ) : ℤ) : ℚ) * 2 ^ (-51 : ℤ)) := rfl
  have hfraction : rational? (.ofBits 0xBFE8000000000000) =
      some (((Sign.negative.apply (6 * 2 ^ 50 : ℕ) : ℤ) : ℚ) * 2 ^ (-53 : ℤ)) := rfl
  constructor
  · obtain ⟨α, β, hα, hβ, -, hexact⟩ :=
      applyBinary_remainder_exact hop hdividend hdivisor (.new false)
    obtain rfl := Option.some.inj (hhuge.symm.trans hα)
    obtain rfl := Option.some.inj (hlarge.symm.trans hβ)
    rw [towardZero_eq_sign_apply, towardZero_eq_sign_apply] at hexact
    obtain ⟨x, z, hx, -, hz, -, -, -, rfl⟩ := hexact (by norm_num [Sign.apply])
    exact ⟨x, hx, hz⟩
  · obtain ⟨α, β, -, hβ, hrefused, -⟩ :=
      applyBinary_remainder_exact hop hdividend hsmall (.new false)
    obtain rfl := Option.some.inj (hfraction.symm.trans hβ)
    exact hrefused.mpr (by norm_num [Sign.apply])

end Calculator.Postfix
