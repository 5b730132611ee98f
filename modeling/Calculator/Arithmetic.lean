import Calculator.Error
import Calculator.Number.Literal
import Calculator.Number.Remainder
import Calculator.Number.Shortest
import Calculator.Token

/-!
What an operator token does to numbers, and how the step is written down. A step shows the operands
and the result, and the operator as it was written in the source.
-/
namespace Calculator.Arithmetic

def operand (t : Token) : Except RuntimeError Float :=
  match Number.read? t.lexeme with
  | some value => .ok value
  | none => .error (.malformedPostfix t.position)

/-- The result of a binary operator. A divisor of zero is refused, and so is a divisor of a
remainder whose whole part is zero. -/
def apply (op : Token) (lhs rhs : Float) : Except RuntimeError Float :=
  match op.kind with
  | .add => .ok (lhs + rhs)
  | .sub => .ok (lhs - rhs)
  | .mul => .ok (lhs * rhs)
  | .div => if rhs == 0 then .error (.divisionByZero op.position) else .ok (lhs / rhs)
  | .mod =>
    match Number.remainder? lhs rhs with
    | none => .error (.moduloByZero op.position)
    | some r => .ok r
  | .exp => .ok (lhs.pow rhs)
  | .number | .decimal | .whitespace | .openBrace | .closeBrace | .neg =>
    .error (.malformedPostfix op.position)

def operationStep (op : Token) (lhs rhs result : Float) : String :=
  s!"{Number.render lhs} {op.lexeme} {Number.render rhs} = {Number.render result}"

def negationStep (value result : Float) : String :=
  s!"-({Number.render value}) = {Number.render result}"

end Calculator.Arithmetic
