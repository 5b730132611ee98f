import Calculator.Kind

/-!
Finite sets of token kinds, kept as a word with one bit per kind, and the phrase that lists a set in
a diagnostic. The word is wider than there are kinds; the bits that belong to none are never set.
-/
namespace Calculator

structure KindSet where
  mask : UInt16
deriving DecidableEq, Repr

namespace KindSet

def empty : KindSet := ⟨0⟩

def bit (k : Kind) : UInt16 := 1 <<< UInt16.ofNat k.index

def insert (s : KindSet) (k : Kind) : KindSet := ⟨s.mask ||| bit k⟩

def ofList (ks : List Kind) : KindSet := ks.foldl insert empty

def contains (s : KindSet) (k : Kind) : Bool := s.mask &&& bit k != 0

instance : Membership Kind KindSet where
  mem s k := s.contains k = true

instance (k : Kind) (s : KindSet) : Decidable (k ∈ s) :=
  inferInstanceAs (Decidable (s.contains k = true))

def toList (s : KindSet) : List Kind := Kind.all.filter s.contains

def size (s : KindSet) : Nat := s.mask.toBitVec.cpop.toNat

def isEmpty (s : KindSet) : Bool := s.mask == 0

/-- The kinds that can begin an operand: a literal, a negation or a group. -/
def operandStart : KindSet := ⟨bit .number ||| bit .decimal ||| bit .openBrace ||| bit .neg⟩

def binaryOperators : KindSet :=
  ⟨bit .add ||| bit .sub ||| bit .mul ||| bit .mod ||| bit .div ||| bit .exp⟩

def phrase : List String → String
  | [] => ""
  | [name] => name
  | [name, last] => name ++ " or " ++ last
  | name :: rest => name ++ ", " ++ phrase rest

def render (s : KindSet) : String := phrase (s.toList.map Kind.name)

section Bits

theorem toBitVec_bit (k : Kind) : (bit k).toBitVec = BitVec.twoPow 16 k.index := by
  cases k <;> rfl

/-- A kind is a member if its bit is set. -/
theorem contains_eq_getLsbD (s : KindSet) (k : Kind) :
    s.contains k = s.mask.toBitVec.getLsbD k.index := by
  have hzero : (s.mask &&& bit k = 0) ↔ s.mask.toBitVec.getLsbD k.index = false := by
    rw [← UInt16.toBitVec_inj, UInt16.toBitVec_and, toBitVec_bit, BitVec.and_twoPow]
    cases s.mask.toBitVec.getLsbD k.index with
    | false => simp
    | true => cases k <;> decide
  rw [Bool.eq_iff_iff, contains, bne_iff_ne, Ne, hzero, Bool.not_eq_false]

theorem getLsbD_insert (s : KindSet) (k : Kind) (i : Nat) :
    (s.insert k).mask.toBitVec.getLsbD i =
      (s.mask.toBitVec.getLsbD i || decide ((k.index : Nat) = i)) := by
  have hbound : (k.index : Nat) < 16 := by omega
  rw [insert, UInt16.toBitVec_or, toBitVec_bit, BitVec.getLsbD_or, BitVec.getLsbD_twoPow,
    decide_eq_true hbound, Bool.true_and]

end Bits

theorem mem_toList (s : KindSet) (k : Kind) : k ∈ s.toList ↔ s.contains k = true := by
  simp [toList, Kind.mem_all]

end KindSet

end Calculator
