import Calculator.Number.Shortest
import Calculator.Proofs.Literals
import Calculator.Proofs.Rounding

/-!
A number that is written out is read back. Its digits are those of a decimal that stands for it:
either the search has found one that reads back, or it has gone on to the decimal that is the
number exactly. So the text of a finite number is a literal that stands for the number, with a
minus in front if the number has one.
-/
namespace Calculator

namespace Decimal

section Digits

variable {places : Nat}

theorem digits_toDigits (n : Nat) : Kind.Digits (Nat.toDigits 10 n) :=
  ⟨Nat.toDigits_ne_nil, fun _ hc => Nat.isDigit_of_mem_toDigits (by decide) (by decide) hc⟩

theorem length_lastDigits (h : 0 < places) (n : Nat) : (lastDigits places n).length = places := by
  have hless : n % scale places < 10 ^ places := Nat.mod_lt _ (Nat.pow_pos (by decide))
  have hlength := (Nat.length_toDigits_le_iff (by decide) h).mpr hless
  rw [lastDigits, List.length_append, List.length_replicate]
  omega

theorem digits_lastDigits (places n : Nat) : Kind.Digits (lastDigits places n) := by
  obtain ⟨hne, hdigits⟩ := digits_toDigits (n % scale places)
  refine ⟨by simp [lastDigits, hne], fun c hc => ?_⟩
  rcases List.mem_append.mp hc with hzero | hshown
  · rw [List.eq_of_mem_replicate hzero]
    rfl
  · exact hdigits c hshown

theorem ofDigitChars_lastDigits (places n : Nat) :
    Nat.ofDigitChars 10 (lastDigits places n) 0 = n % scale places := by
  rw [lastDigits, Nat.ofDigitChars_append, Nat.ofDigitChars_replicate_zero, Nat.mul_zero,
    Nat.ofDigitChars_ten_toDigits]

end Digits

section Render

variable {d : Decimal}

/-- A decimal without a power of ten above one is written as a literal that stands for it. -/
theorem render_literal (h : d.exponent ≤ 0) :
    ∃ k : Kind, k.isOperand = true ∧ k.Spells d.render ∧ ofLiteral d.render = d := by
  obtain ⟨n, exponent⟩ := d
  match exponent, h with
  | .ofNat 0, _ =>
    have hrender : render ⟨n, .ofNat 0⟩ = Nat.toDigits 10 n := by simp [render, scale]
    have hdigits := digits_toDigits n
    refine ⟨.number, rfl, hrender ▸ hdigits, ?_⟩
    rw [hrender, ofLiteral_number hdigits, Nat.ofDigitChars_ten_toDigits]
    rfl
  | .negSucc p, _ =>
    have hwhole := digits_toDigits (n / scale (p + 1))
    have hfraction := digits_lastDigits (p + 1) n
    refine ⟨.decimal, rfl, ⟨_, _, rfl, hwhole, hfraction⟩, ?_⟩
    rw [render, ofLiteral_decimal hwhole hfraction, length_lastDigits (Nat.succ_pos p)]
    rw [Nat.ofDigitChars_append, Nat.ofDigitChars_ten_toDigits,
      Nat.ofDigitChars_eq_ofDigitChars_zero, ofDigitChars_lastDigits,
      length_lastDigits (Nat.succ_pos p)]
    exact congrArg (Decimal.mk · _) (Nat.div_add_mod n (10 ^ (p + 1)))

end Render

end Decimal

namespace Magnitude

open Number
open Float.Model (UnpackedFloat)

variable {x : Magnitude} {m : Nat} {e : Int} {f : Float}

theorem exponent_multiple (n : Nat) (k : Int) : (multiple n k).exponent ≤ 0 := by
  change min k 0 ≤ 0
  omega

theorem exponent_of_mem_neighbours {d : Decimal} {k : Int} (h : d ∈ x.neighbours k) :
    d.exponent ≤ 0 := by
  have hcases : d = x.below k ∨ d = x.above k := by
    unfold neighbours at h
    split at h <;> simp at h <;> tauto
  rcases hcases with rfl | rfl
  · exact exponent_multiple _ k
  · exact exponent_multiple _ k

/-- By induction on the steps: the search ends with a decimal that reads back, or with the last of
those that it has not tried. -/
theorem shortestFrom_spec (x : Magnitude) (steps : Nat) (k : Int) :
    (x.shortestFrom steps k).exponent ≤ 0 ∧
      (x.ReadsBack (x.shortestFrom steps k) ∨ x.shortestFrom steps k = x.below (k - steps)) := by
  induction steps generalizing k with
  | zero =>
    refine ⟨exponent_multiple _ k, .inr ?_⟩
    rw [shortestFrom, Nat.cast_zero, Int.sub_zero]
  | succ steps ih =>
    rw [shortestFrom]
    split
    · rename_i d hfound
      have hreads := List.find?_some hfound
      exact ⟨exponent_of_mem_neighbours (List.mem_of_find?_eq_some hfound),
        .inl (of_decide_eq_true hreads)⟩
    · have hrest := ih (k - 1)
      have hlast : k - 1 - (steps : Int) = k - ((steps + 1 : Nat) : Int) := by omega
      rwa [hlast] at hrest

theorem shortest_spec (x : Magnitude) :
    x.shortest.exponent ≤ 0 ∧
      (x.ReadsBack x.shortest ∨ x.shortest = x.below (min x.exponent 0)) := by
  have hspec := x.shortestFrom_spec
    (((Nat.toDigits 10 (x.below 0).digits).length : Int) - min x.exponent 0).toNat
    ((Nat.toDigits 10 (x.below 0).digits).length : Int)
  have hlast : ((Nat.toDigits 10 (x.below 0).digits).length : Int) -
      ((((Nat.toDigits 10 (x.below 0).digits).length : Int) - min x.exponent 0).toNat : Int) =
      min x.exponent 0 := by
    omega
  rwa [hlast] at hspec

/-- On the finest power of ten the neighbour below is the magnitude itself. -/
theorem below_whole (m n : Nat) : (Magnitude.mk m n).below 0 = ⟨m * 2 ^ n, 0⟩ := by
  simp [below, multiple, numerator, denominator, Decimal.scale, Nat.shiftLeft_eq]

theorem below_fraction (m n : Nat) :
    (Magnitude.mk m (-(n : Int))).below (-(n : Int)) = ⟨m * 5 ^ n, -(n : Int)⟩ := by
  have hten : m * 10 ^ n = m * 5 ^ n * 2 ^ n := by
    rw [Nat.mul_assoc, ← Nat.mul_pow]
  have htwo : 0 < 2 ^ n := Nat.pow_pos (by decide)
  have hnumerator : (Magnitude.mk m (-(n : Int))).numerator (-(n : Int)) = m * 10 ^ n := by
    simp [numerator, Decimal.scale]
  have hdenominator : (Magnitude.mk m (-(n : Int))).denominator (-(n : Int)) = 2 ^ n := by
    simp [denominator, Decimal.scale, Nat.shiftLeft_eq]
  rw [below, hnumerator, hdenominator, hten, Nat.mul_div_cancel _ htwo]
  simp [multiple, Decimal.scale]

theorem toFloat_below_finest {hm : 0 < m} (h : f.toModel.unpack = .finite .positive m e hm) :
    ((Magnitude.mk m e).below (min e 0)).toFloat = f := by
  rcases Int.lt_or_le e 0 with he | he
  · obtain ⟨n, rfl⟩ : ∃ n : Nat, e = -(n : Int) := ⟨(-e).toNat, by omega⟩
    rw [Int.min_eq_left he.le, below_fraction]
    exact toFloat_fraction h rfl (by omega)
  · obtain ⟨n, rfl⟩ := Int.eq_ofNat_of_zero_le he
    rw [Int.min_eq_right he, below_whole]
    exact toFloat_whole h

theorem toFloat_of_readsBack {hm : 0 < m} (h : f.toModel.unpack = .finite .positive m e hm)
    {d : Decimal} (hd : (Magnitude.mk m e).ReadsBack d) : d.toFloat = f := by
  refine eq_of_unpack_eq ?_
  rw [ReadsBack, ofFloat?] at hd
  split at hd
  · rename_i hread
    cases hd
    rw [hread, h]
  · cases hd

/-- The digits that are shown are those of the number. -/
theorem toFloat_shortest {hm : 0 < m} (h : f.toModel.unpack = .finite .positive m e hm) :
    (Magnitude.mk m e).shortest.toFloat = f := by
  rcases (Magnitude.mk m e).shortest_spec.2 with hread | hlast
  · exact toFloat_of_readsBack h hread
  · rw [hlast]
    exact toFloat_below_finest h

end Magnitude

namespace Number

open Float.Model (UnpackedFloat)

def Unsigned (x : Float) : Prop :=
  x.toModel.unpack = .zero .positive ∨
    ∃ m e hm, x.toModel.unpack = .finite .positive m e hm

variable {x : Float}

/-- Of a finite number and its negation one has no sign. -/
theorem unsigned_or_neg (h : x.isFinite = true) : Unsigned x ∨ Unsigned (-x) := by
  have hfinite : x.toModel.unpack.isFinite = true := h
  rw [Unsigned, Unsigned, unpack_neg]
  cases hx : x.toModel.unpack with
  | notANumber =>
    rw [hx] at hfinite
    cases hfinite
  | infinity sign =>
    rw [hx] at hfinite
    cases hfinite
  | zero sign =>
    cases sign with
    | positive => exact .inl (.inl rfl)
    | negative => exact .inr (.inl rfl)
  | finite sign m e hm =>
    cases sign with
    | positive => exact .inl (.inr ⟨m, e, hm, rfl⟩)
    | negative => exact .inr (.inr ⟨m, e, hm, rfl⟩)

theorem eq_zero_of_unpack (h : x.toModel.unpack = .zero .positive) :
    (Decimal.mk 0 0).toFloat = x := by
  refine eq_of_unpack_eq ?_
  rw [h]
  rfl

/-- Written out, a finite number without a sign is a literal that stands for it. -/
theorem Unsigned.render_literal (h : Unsigned x) :
    ∃ k : Kind, k.isOperand = true ∧ k.Spells (render x).toList ∧ ofLiteral (render x) = x := by
  rcases h with hzero | ⟨m, e, hm, hx⟩
  · have hrender : render x = "0" := by simp [render, hzero, signText]
    have hdigits : Kind.Digits "0".toList := ⟨by decide, by simp⟩
    refine ⟨.number, rfl, hrender ▸ hdigits, ?_⟩
    rw [hrender]
    exact eq_zero_of_unpack hzero
  · have hrender : (render x).toList = (Magnitude.mk m e).shortest.render := by
      simp [render, hx, signText, Magnitude.render]
    obtain ⟨k, hk, hspells, hliteral⟩ :=
      Decimal.render_literal (Magnitude.mk m e).shortest_spec.1
    refine ⟨k, hk, hrender ▸ hspells, ?_⟩
    rw [ofLiteral, hrender, hliteral]
    exact Magnitude.toFloat_shortest hx

/-- Its negation is written with a minus in front. -/
theorem Unsigned.render_neg (h : Unsigned x) : render (-x) = "-" ++ render x := by
  refine String.toList_inj.mp ?_
  rcases h with hzero | ⟨m, e, hm, hx⟩
  · have hneg : (-x).toModel.unpack = .zero .negative := by
      rw [unpack_neg, hzero]
      rfl
    simp [render, hzero, hneg, signText]
  · have hneg : (-x).toModel.unpack = .finite .negative m e hm := by
      rw [unpack_neg, hx]
      rfl
    simp [render, hx, hneg, signText]

end Number

end Calculator
