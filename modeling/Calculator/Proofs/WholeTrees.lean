import Calculator.Proofs.Reckoning
import Calculator.Proofs.Remainders

/-!
Expressions of whole numbers, without points, quotients and powers. Such an expression has a value
over the integers, where nothing is rounded and a remainder is refused for a divisor of zero only.
The evaluation finds this value, or refuses the same remainder, as long as the numbers on the way do
not exceed `2 ^ 53` in magnitude.
-/
namespace Calculator

def Kind.isWhole : Kind → Bool
  | .number | .whitespace | .openBrace | .closeBrace | .add | .sub | .neg | .mul | .mod => true
  | .decimal | .div | .exp => false

def Token.IsWhole (t : Token) : Prop := t.kind.isWhole = true ∧ t.kind.Spells t.lexeme.toList

namespace Arithmetic

def wholeLiteral (t : Token) : ℤ := Nat.ofDigitChars 10 t.lexeme.toList 0

/-- The whole number that a binary operator makes of two whole numbers, or the place of an operator
that makes none. A remainder is that of the division toward zero. -/
def applyWhole (op : Token) (lhs rhs : ℤ) : Except Position ℤ :=
  match op.kind with
  | .add => .ok (lhs + rhs)
  | .sub => .ok (lhs - rhs)
  | .mul => .ok (lhs * rhs)
  | .mod => if rhs = 0 then .error op.position else .ok (lhs.tmod rhs)
  | .div | .exp | .number | .decimal | .whitespace | .openBrace | .closeBrace | .neg =>
    .error op.position

inductive Agree : Except RuntimeError Float → Except Position ℤ → Prop
  | number {x : Float} {z : ℤ} : Number.rational? x = some (z : ℚ) → Agree (.ok x) (.ok z)
  | refused (place : Position) : Agree (.error (.moduloByZero place)) (.error place)

theorem operand_agree {t : Token} (hoperand : t.kind.isOperand = true) (ht : t.IsWhole)
    (hsmall : (wholeLiteral t).natAbs ≤ 2 ^ 53) : Agree (operand t) (.ok (wholeLiteral t)) := by
  obtain ⟨hwhole, hspells⟩ := ht
  have hnumber : t.kind = .number := by
    revert hoperand hwhole
    cases t.kind <;> decide
  have hread := Number.read?_literal hoperand hspells
  rw [hnumber] at hspells
  rw [Number.ofLiteral, Decimal.ofLiteral_number hspells, Number.toFloat_eq_ofNat] at hread
  rw [operand, hread]
  exact .number (Number.rational?_ofNat hsmall)

/-- A divisor of zero is refused whichever of the two zeros it is. -/
theorem apply_agree {op : Token} {x y : Float} {a b : ℤ} (hop : op.kind.arity = some .binary)
    (hwhole : op.kind.isWhole = true) (hx : Number.rational? x = some (a : ℚ))
    (hy : Number.rational? y = some (b : ℚ))
    (hsmall : ∀ z, applyWhole op a b = .ok z → z.natAbs ≤ 2 ^ 53) :
    Agree (apply op x y) (applyWhole op a b) := by
  rw [applyWhole] at hsmall ⊢
  rw [apply]
  cases hkind : op.kind <;> rw [hkind] at hop hwhole hsmall <;> try cases hop <;> try cases hwhole
  case add => exact .number (Number.rational?_add hx hy (hsmall _ rfl))
  case sub => exact .number (Number.rational?_sub hx hy (hsmall _ rfl))
  case mul => exact .number (Number.rational?_mul hx hy (hsmall _ rfl))
  case mod =>
    by_cases hb : b = 0
    · have hnone : Number.remainder? x y = none :=
        (Number.remainder?_eq_none_iff_of_whole hy).mpr hb
      simp only [hnone, if_pos hb]
      exact .refused op.position
    · have hdivisor : Number.towardZero b ≠ 0 := by rwa [Number.towardZero_intCast]
      obtain ⟨r, hr, hvalue⟩ := Number.exists_remainder hx hy hdivisor
      rw [Number.towardZero_intCast, Number.towardZero_intCast] at hvalue
      simp only [hr, if_neg hb]
      exact .number hvalue

end Arithmetic

namespace Tree

open Arithmetic

/-- The value of an expression over the whole numbers, or the place of the first operator in the
listing that has none. -/
def whole : Tree → Except Position ℤ
  | literal t => .ok (wholeLiteral t)
  | negation _ e =>
    match e.whole with
    | .error place => .error place
    | .ok value => .ok (-value)
  | operation op l r =>
    match l.whole with
    | .error place => .error place
    | .ok lhs =>
      match r.whole with
      | .error place => .error place
      | .ok rhs => applyWhole op lhs rhs

/-- No literal and no result exceeds `2 ^ 53` in magnitude. What is listed behind the first operator
without a value does not count. -/
def Small : Tree → Prop
  | literal t => (wholeLiteral t).natAbs ≤ 2 ^ 53
  | negation _ e => e.Small
  | operation op l r =>
    l.Small ∧ ∀ lhs, l.whole = .ok lhs →
      r.Small ∧ ∀ rhs, r.whole = .ok rhs →
        ∀ value, applyWhole op lhs rhs = .ok value → value.natAbs ≤ 2 ^ 53

/-- The walk of a tree finds the same over the doubles as over the whole numbers. -/
theorem evaluate_agree {e : Tree} (hkind : e.WellKinded) (htokens : ∀ t ∈ e.postorder, t.IsWhole)
    (hsmall : e.Small) : Agree e.evaluate.1 e.whole := by
  induction e with
  | literal t => exact operand_agree hkind (htokens t (by simp [postorder])) hsmall
  | negation op e ih =>
    have hagree := ih hkind.2 (fun t ht => htokens t (by simp [postorder, ht])) hsmall
    rw [evaluate, whole]
    generalize e.evaluate = walk, e.whole = value at hagree ⊢
    obtain ⟨answer, steps⟩ := walk
    cases hagree with
    | number hx => exact .number (Number.rational?_neg hx)
    | refused place => exact .refused place
  | operation op l r ihl ihr =>
    obtain ⟨hlsmall, hrest⟩ := hsmall
    have hop := (htokens op (by simp [postorder])).1
    have hlagree := ihl hkind.2.1 (fun t ht => htokens t (by simp [postorder, ht])) hlsmall
    rw [evaluate, whole]
    generalize l.evaluate = lwalk, l.whole = lvalue at hlagree hrest ⊢
    obtain ⟨lanswer, front⟩ := lwalk
    cases hlagree with
    | refused place => exact .refused place
    | @number x a hx =>
      obtain ⟨hrsmall, hresult⟩ := hrest a rfl
      have hragree := ihr hkind.2.2 (fun t ht => htokens t (by simp [postorder, ht])) hrsmall
      generalize r.evaluate = rwalk, r.whole = rvalue at hragree hresult ⊢
      obtain ⟨ranswer, back⟩ := rwalk
      cases hragree with
      | refused place => exact .refused place
      | @number y b hy =>
        have happly := apply_agree hkind.1 hop hx hy (hresult b rfl)
        simp only
        cases hvalue : apply op x y with
        | error err => rwa [hvalue] at happly
        | ok value => rwa [hvalue] at happly

end Tree

/-- An expression of whole numbers is evaluated to its value over the integers, and a remainder is
refused exactly where the integers have none, if no number on the way is too large. -/
theorem evaluate_whole {source : String} {ts : List Token} {p : Postfix}
    (hscan : Token.scan source = .ok ts) (hparse : Postfix.parse ts = .ok p)
    (hwhole : ∀ t ∈ ts, t.kind.isWhole = true) (debug : Bool) :
    ∃ e, Phrase.At .sum e ∧ e.yield = Token.significant ts ∧
      (e.tree.Small →
        match e.tree.whole with
        | .ok z =>
          ∃ v, evaluate source debug = .ok v ∧ Number.rational? v.value = some (z : ℚ)
        | .error place =>
          ∃ trace, evaluate source debug = .error (.runtime (.moduloByZero place) trace)) := by
  obtain ⟨e, he, hyield⟩ := (Phrase.check_iff_exists_phrase ts).mp (Postfix.check_of_parse hparse)
  refine ⟨e, he, hyield, fun hsmall => ?_⟩
  have htokens : ∀ t ∈ e.tree.postorder, t.IsWhole := by
    intro t ht
    have hts := Phrase.mem_of_mem_postorder hyield ht
    exact ⟨hwhole t hts, (Token.scan_iff_scanned.mp hscan).spelled t hts⟩
  have hagree := Tree.evaluate_agree he.wellKinded htokens hsmall
  rw [Tree.evaluate_eq_reckon he.wellKinded fun t ht => (htokens t ht).2] at hagree
  rw [evaluate_of_phrase hscan he hyield debug, Tree.answer]
  generalize e.tree.reckon = walk, e.tree.whole = value at hagree ⊢
  obtain ⟨answer, steps⟩ := walk
  cases hagree with
  | number hx => exact ⟨_, rfl, hx⟩
  | refused place => exact ⟨_, rfl⟩

/-- The tokens of `7 % (-4 % 2)`. -/
def negativeZeroDivisorTokens : List Token :=
  [⟨.number, "7", ⟨1, 1⟩⟩, ⟨.whitespace, " ", ⟨2, 1⟩⟩, ⟨.mod, "%", ⟨3, 1⟩⟩,
    ⟨.whitespace, " ", ⟨4, 1⟩⟩, ⟨.openBrace, "(", ⟨5, 1⟩⟩, ⟨.neg, "-", ⟨6, 1⟩⟩,
    ⟨.number, "4", ⟨7, 1⟩⟩, ⟨.whitespace, " ", ⟨8, 1⟩⟩, ⟨.mod, "%", ⟨9, 1⟩⟩,
    ⟨.whitespace, " ", ⟨10, 1⟩⟩, ⟨.number, "2", ⟨11, 1⟩⟩, ⟨.closeBrace, ")", ⟨12, 1⟩⟩]

def negativeZeroDivisor : Phrase :=
  .operation ⟨.mod, "%", ⟨3, 1⟩⟩ (.literal ⟨.number, "7", ⟨1, 1⟩⟩)
    (.group ⟨.openBrace, "(", ⟨5, 1⟩⟩
      (.operation ⟨.mod, "%", ⟨9, 1⟩⟩
        (.negation ⟨.neg, "-", ⟨6, 1⟩⟩ (.literal ⟨.number, "4", ⟨7, 1⟩⟩))
        (.literal ⟨.number, "2", ⟨11, 1⟩⟩))
      ⟨.closeBrace, ")", ⟨12, 1⟩⟩)

theorem evaluate_negativeZeroDivisor :
    Token.scan "7 % (-4 % 2)" = .ok negativeZeroDivisorTokens ∧
      Postfix.parse negativeZeroDivisorTokens = .ok (Postfix.arrange negativeZeroDivisorTokens) ∧
        (∀ t ∈ negativeZeroDivisorTokens, t.kind.isWhole = true) ∧ negativeZeroDivisor.tree.Small ∧
          ∃ trace, evaluate "7 % (-4 % 2)" true =
            .error (.runtime (.moduloByZero ⟨3, 1⟩) trace) := by
  have hscan : Token.scan "7 % (-4 % 2)" = .ok negativeZeroDivisorTokens := by cbv
  have hparse : Postfix.parse negativeZeroDivisorTokens =
      .ok (Postfix.arrange negativeZeroDivisorTokens) := rfl
  have hwhole : ∀ t ∈ negativeZeroDivisorTokens, t.kind.isWhole = true := by decide
  have hphrase : Phrase.At .sum negativeZeroDivisor := by
    refine .sumOfProduct (.product (.inr (.inr rfl)) (.productOfPower ?_) ?_)
    · exact .powerOfUnary (.unaryOfAtom (.literal (.inl rfl)))
    · refine .powerOfUnary (.unaryOfAtom (.group rfl (.sumOfProduct ?_) rfl))
      refine .product (.inr (.inr rfl)) (.productOfPower (.powerOfUnary ?_)) ?_
      · exact .negation rfl (.unaryOfAtom (.literal (.inl rfl)))
      · exact .powerOfUnary (.unaryOfAtom (.literal (.inl rfl)))
  have hsmall : negativeZeroDivisor.tree.Small := by
    simp [negativeZeroDivisor, Phrase.tree, Tree.Small, Tree.whole, Arithmetic.wholeLiteral,
      Arithmetic.applyWhole, Nat.ofDigitChars_cons]
  have hvalue : negativeZeroDivisor.tree.whole = .error ⟨3, 1⟩ := by decide
  obtain ⟨e, he, hyield, hanswer⟩ := evaluate_whole hscan hparse hwhole true
  obtain rfl : e = negativeZeroDivisor := he.yield_injective hphrase hyield
  have hrefused := hanswer hsmall
  rw [hvalue] at hrefused
  exact ⟨hscan, hparse, hwhole, hsmall, hrefused⟩

end Calculator
