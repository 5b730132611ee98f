import Calculator.Arithmetic
import Calculator.Postfix

/-!
Execution of a postfix sequence on a stack of numbers. An operand is pushed; an operator takes its
operands off the stack and pushes its result, and this step is recorded. An error leaves the steps
recorded before it in the recorder.
-/
namespace Calculator.Postfix

open Arithmetic

structure Outcome (α : Type) where
  answer : Except RuntimeError α
  recorder : Recorder

def applyBinary (op : Token) (lhs rhs : Float) (r : Recorder) : Logged (Outcome Float) :=
  match apply op lhs rhs with
  | .error e => return ⟨.error e, r⟩
  | .ok result => return ⟨.ok result, ← r.record (operationStep op lhs rhs result)⟩

def applyNegation (value : Float) (r : Recorder) : Logged (Outcome Float) :=
  return ⟨.ok (-value), ← r.record (negationStep value (-value))⟩

/-- Executes one token on a stack whose top comes first. -/
def step (stack : List Float) (t : Token) (r : Recorder) : Logged (Outcome (List Float)) :=
  if t.kind.isOperand then
    return ⟨(operand t).map (· :: stack), r⟩
  else
    match t.kind.arity, stack with
    | some .unary, value :: below => do
      let o ← applyNegation value r
      return ⟨o.answer.map (· :: below), o.recorder⟩
    | some .binary, rhs :: lhs :: below => do
      let o ← applyBinary t lhs rhs r
      return ⟨o.answer.map (· :: below), o.recorder⟩
    | _, _ => return ⟨.error (.malformedPostfix t.position), r⟩

def run (stack : List Float) (r : Recorder) : List Token → Logged (Outcome (List Float))
  | [] => return ⟨.ok stack, r⟩
  | t :: rest => do
    let o ← step stack t r
    match o.answer with
    | .error _ => return o
    | .ok next => run next o.recorder rest

/-- Executes a sequence with a recorder, which is cleared first. The answer is the one value that
is left on the stack; if another number of values is left, the sequence was not postfix. -/
def execute (p : Postfix) (r : Recorder) : Logged (Outcome Float) := do
  let o ← run [] r.clear p.tokens
  match o.answer with
  | .error e => return ⟨.error e, o.recorder⟩
  | .ok [value] =>
    Logged.send .debug s!"result: {Number.render value}"
    return ⟨.ok value, o.recorder⟩
  | .ok _ => return ⟨.error (.malformedPostfix p.lastPosition), o.recorder⟩

structure Execution where
  value : Float
  trace : Trace

/-- Executes a sequence with a recorder of its own. The steps made before an error are dropped. -/
def executeAlone (p : Postfix) : Logged (Except RuntimeError Execution) := do
  let o ← p.execute (.new false)
  return o.answer.map fun value => ⟨value, o.recorder.trace⟩

end Calculator.Postfix
