import Calculator.Token

/-!
Expressions as trees of operators, each node with its token. Braces are not part of a tree: they
have done their work once the tree is there. The post-order listing of a tree is the sequence in
which an operator stands behind its operands.
-/
namespace Calculator

inductive Tree where
  | literal (t : Token)
  | negation (op : Token) (operand : Tree)
  | operation (op : Token) (lhs rhs : Tree)
deriving DecidableEq, Repr

namespace Tree

def postorder : Tree → List Token
  | literal t => [t]
  | negation op e => e.postorder ++ [op]
  | operation op l r => l.postorder ++ r.postorder ++ [op]

def WellKinded : Tree → Prop
  | literal t => t.kind.isOperand = true
  | negation op e => op.kind = .neg ∧ e.WellKinded
  | operation op l r => op.kind.arity = some .binary ∧ l.WellKinded ∧ r.WellKinded

theorem postorder_ne_nil (e : Tree) : e.postorder ≠ [] := by
  cases e <;> simp [postorder]

end Tree

end Calculator
