import Calculator.Tree

/-!
Two ways to write a tree as a source text: with a group around every operator, and with groups only
where the text would otherwise be read as another tree.
-/
namespace Calculator

/-- Binding strength as a number; kinds without one bind least. -/
def Kind.strength (k : Kind) : Nat := k.precedence.getD 0

namespace Tree

def grouped (text : List Char) : List Char := '(' :: text ++ [')']

end Tree

end Calculator
