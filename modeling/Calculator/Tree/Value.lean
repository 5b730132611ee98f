import Calculator.Arithmetic
import Calculator.Tree

/-!
The value of a tree, found by walking it: the left operand, the right operand, then the operator.
Every operator adds one step, and the walk stops at the first operator or literal that has no
value, with the steps made so far.
-/
namespace Calculator.Tree

open Arithmetic

def evaluate : Tree → Except RuntimeError Float × List String
  | literal t => (operand t, [])
  | negation _ e =>
    match e.evaluate with
    | (.error err, steps) => (.error err, steps)
    | (.ok value, steps) => (.ok (-value), steps ++ [negationStep value (-value)])
  | operation op l r =>
    match l.evaluate with
    | (.error err, steps) => (.error err, steps)
    | (.ok lhs, lhsSteps) =>
      match r.evaluate with
      | (.error err, rhsSteps) => (.error err, lhsSteps ++ rhsSteps)
      | (.ok rhs, rhsSteps) =>
        match apply op lhs rhs with
        | .error err => (.error err, lhsSteps ++ rhsSteps)
        | .ok value =>
          (.ok value, lhsSteps ++ rhsSteps ++ [operationStep op lhs rhs value])

end Calculator.Tree
