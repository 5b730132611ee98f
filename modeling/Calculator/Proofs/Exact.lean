import Calculator.Number.Remainder
import Mathlib

/-!
Doubles as rational numbers. A finite double is one exactly, and what the arithmetic asks of the
parts of a double, whether it is zero and whether its whole part is, are questions about that
number.
-/
namespace Calculator.Number

open Float.Model (UnpackedFloat)

def rational? (x : Float) : Option ℚ :=
  match x.toModel.unpack with
  | .zero _ => some 0
  | .finite sign m e _ => some ((sign.apply m : ℤ) * 2 ^ e)
  | .infinity _ | .notANumber => none

def towardZero (q : ℚ) : ℤ := if q < 0 then ⌈q⌉ else ⌊q⌋

theorem beq_zero_iff (x : Float) : (x == 0) = true ↔ rational? x = some 0 := by
  have hbeq : (x == 0) = x.toModel.unpack.beq (.zero .positive) := rfl
  rw [hbeq, rational?]
  cases x.toModel.unpack with
  | infinity sign => cases sign <;> simp [UnpackedFloat.beq, UnpackedFloat.compare]
  | notANumber => simp [UnpackedFloat.beq, UnpackedFloat.compare]
  | zero sign => simp [UnpackedFloat.beq, UnpackedFloat.compare]
  | finite sign m e hm =>
    have hscale : (2 : ℚ) ^ e ≠ 0 := by positivity
    have hm' : m ≠ 0 := by omega
    cases sign <;>
      simp [UnpackedFloat.beq, UnpackedFloat.compare, UnpackedFloat.Sign.apply, hm', hscale]

theorem wholePart_eq_floor (m : ℕ) (e : ℤ) : wholePart m e = ⌊(m : ℚ) * 2 ^ e⌋₊ := by
  unfold wholePart
  rw [Nat.shiftLeft_eq, Nat.shiftRight_eq_div_pow]
  obtain ⟨n, rfl | rfl⟩ := e.eq_nat_or_neg
  · have hexact : (m : ℚ) * 2 ^ (n : ℤ) = (m * 2 ^ n : ℕ) := by push_cast; rw [zpow_natCast]
    have hneg : (-(n : ℤ)).toNat = 0 := by omega
    rw [hexact, Nat.floor_natCast, hneg]
    simp
  · have hexact : (m : ℚ) * 2 ^ (-(n : ℤ)) = (m : ℚ) / (2 ^ n : ℕ) := by
      rw [zpow_neg, zpow_natCast]
      push_cast
      rfl
    have hneg : (-(n : ℤ)).toNat = 0 := by omega
    rw [hexact, Nat.floor_div_eq_div, hneg]
    simp

theorem towardZero_intCast (z : ℤ) : towardZero z = z := by
  unfold towardZero
  split
  · exact Int.ceil_intCast z
  · exact Int.floor_intCast z

theorem towardZero_eq_zero_iff (q : ℚ) : towardZero q = 0 ↔ |q| < 1 := by
  unfold towardZero
  split
  · rename_i hneg
    rw [Int.ceil_eq_zero_iff, abs_of_neg hneg]
    simp only [Set.mem_Ioc]
    constructor
    · intro h
      linarith [h.1]
    · intro h
      exact ⟨by linarith, hneg.le⟩
  · rename_i hneg
    have hnonneg : 0 ≤ q := not_lt.mp hneg
    rw [Int.floor_eq_zero_iff, abs_of_nonneg hnonneg]
    simp only [Set.mem_Ico]
    exact ⟨fun h => h.2, fun h => ⟨hnonneg, h⟩⟩

theorem wholePart_eq_zero_iff (sign : UnpackedFloat.Sign) (m : ℕ) (e : ℤ) :
    wholePart m e = 0 ↔ towardZero ((sign.apply m : ℤ) * 2 ^ e) = 0 := by
  have hscale : (0 : ℚ) < 2 ^ e := by positivity
  have habs : |((sign.apply m : ℤ) : ℚ) * 2 ^ e| = m * 2 ^ e := by
    rw [abs_mul, abs_of_pos hscale]
    cases sign <;> simp [UnpackedFloat.Sign.apply]
  rw [towardZero_eq_zero_iff, habs, wholePart_eq_floor, Nat.floor_eq_zero]

/-- A divisor has no remainder exactly if its whole part is zero. -/
theorem remainder?_eq_none_iff (a b : Float) :
    remainder? a b = none ↔ (rational? b).map towardZero = some 0 := by
  rw [remainder?, rational?]
  cases b.toModel.unpack with
  | zero sign => simp [towardZero]
  | infinity sign => simp
  | notANumber => simp
  | finite sign m e hm => simp [wholePart_eq_zero_iff sign]

end Calculator.Number
