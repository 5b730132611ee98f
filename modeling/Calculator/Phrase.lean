import Calculator.Tree

/-!
Expressions as they are written, with their groups, and the strata that fix how a row of tokens is
read: sums are looser than products, products than powers, powers than negations. Sums and products
group to the left and powers to the right.
-/
namespace Calculator

inductive Phrase where
  | literal (t : Token)
  | group (opening : Token) (inner : Phrase) (closing : Token)
  | negation (op : Token) (operand : Phrase)
  | operation (op : Token) (lhs rhs : Phrase)
deriving DecidableEq, Repr

namespace Phrase

def yield : Phrase → List Token
  | literal t => [t]
  | group opening e closing => opening :: e.yield ++ [closing]
  | negation op e => op :: e.yield
  | operation op l r => l.yield ++ op :: r.yield

def tree : Phrase → Tree
  | literal t => .literal t
  | group _ e _ => e.tree
  | negation op e => .negation op e.tree
  | operation op l r => .operation op l.tree r.tree

inductive Stratum where
  | sum
  | product
  | power
  | unary
  | atom
deriving DecidableEq, Repr

inductive At : Stratum → Phrase → Prop
  | sumOfProduct {e : Phrase} : At .product e → At .sum e
  | sum {op : Token} {l r : Phrase} : op.kind = .add ∨ op.kind = .sub →
      At .sum l → At .product r → At .sum (.operation op l r)
  | productOfPower {e : Phrase} : At .power e → At .product e
  | product {op : Token} {l r : Phrase} : op.kind = .mul ∨ op.kind = .div ∨ op.kind = .mod →
      At .product l → At .power r → At .product (.operation op l r)
  | powerOfUnary {e : Phrase} : At .unary e → At .power e
  | power {op : Token} {l r : Phrase} : op.kind = .exp →
      At .unary l → At .power r → At .power (.operation op l r)
  | negation {op : Token} {e : Phrase} : op.kind = .neg →
      At .unary e → At .unary (.negation op e)
  | unaryOfAtom {e : Phrase} : At .atom e → At .unary e
  | literal {t : Token} : t.kind = .number ∨ t.kind = .decimal → At .atom (.literal t)
  | group {opening closing : Token} {e : Phrase} : opening.kind = .openBrace →
      At .sum e → closing.kind = .closeBrace → At .atom (.group opening e closing)

/-- A phrase of any stratum has a tree in which every token stands in a node of its kind. -/
theorem At.wellKinded {s : Stratum} {e : Phrase} (h : At s e) : e.tree.WellKinded := by
  induction h with
  | sumOfProduct _ ih => exact ih
  | productOfPower _ ih => exact ih
  | powerOfUnary _ ih => exact ih
  | unaryOfAtom _ ih => exact ih
  | sum hop _ _ hl hr => rcases hop with hop | hop <;> exact ⟨by rw [hop]; rfl, hl, hr⟩
  | product hop _ _ hl hr =>
    rcases hop with hop | hop | hop <;> exact ⟨by rw [hop]; rfl, hl, hr⟩
  | power hop _ _ hl hr => exact ⟨by rw [hop]; rfl, hl, hr⟩
  | negation hop _ ih => exact ⟨hop, ih⟩
  | literal ht =>
    change Kind.isOperand _ = true
    rcases ht with ht | ht <;> rw [ht] <;> rfl
  | group _ _ _ ih => exact ih

end Phrase

end Calculator
