import Calculator.Kind

/-!
The grammar of expressions as a relation on rows of kinds. It says nothing about how tightly
operators bind, which does not change what rows there are: an expression is a chain of operands
with binary operators between them.
-/
namespace Calculator.Grammar

inductive Category where
  | expression
  | operand
deriving DecidableEq, Repr

inductive Derives : Category → List Kind → Prop
  | operand {u : List Kind} : Derives .operand u → Derives .expression u
  | operation {e u : List Kind} {k : Kind} : Derives .expression e → k.arity = some .binary →
      Derives .operand u → Derives .expression (e ++ k :: u)
  | negation {u : List Kind} : Derives .operand u → Derives .operand (.neg :: u)
  | number : Derives .operand [.number]
  | decimal : Derives .operand [.decimal]
  | group {e : List Kind} : Derives .expression e →
      Derives .operand (.openBrace :: e ++ [.closeBrace])

end Calculator.Grammar
