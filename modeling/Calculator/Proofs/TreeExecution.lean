import Calculator.Postfix.Execution
import Calculator.Tree.Value

/-!
Executing the post-order listing of a tree walks the tree. The stack below the operands is left
alone, every step is recorded in the order of the walk, and the first operator or literal without a
value ends the execution with the steps recorded so far. The statements are about whole logged
computations, so that they hold for the answer, the recorder and the messages sent.
-/
namespace Calculator

namespace Recorder

def recordAll (r : Recorder) (steps : List String) : Logged Recorder := steps.foldlM record r

@[simp] theorem recordAll_nil (r : Recorder) : r.recordAll [] = pure r := rfl

@[simp] theorem recordAll_append (r : Recorder) (front rest : List String) :
    r.recordAll (front ++ rest) = r.recordAll front >>= fun q => q.recordAll rest :=
  List.foldlM_append

@[simp] theorem recordAll_singleton (r : Recorder) (step : String) :
    r.recordAll [step] = r.record step := by
  simp [recordAll]

/-- Only the trace of a recorder changes, by the steps at its end. -/
theorem value_recordAll (r : Recorder) (steps : List String) :
    (r.recordAll steps).value = { r with trace := ⟨r.trace.steps ++ steps.toArray⟩ } := by
  induction steps generalizing r with
  | nil => simp [recordAll]
  | cons step rest ih =>
    change ((r.record step).value.recordAll rest).value = _
    rw [ih]
    change (⟨⟨(r.trace.steps.push step) ++ rest.toArray⟩, r.echo⟩ : Recorder) = _
    simp

@[simp] theorem trace_recordAll_clear (r : Recorder) (steps : List String) :
    (r.clear.recordAll steps).value.trace = ⟨steps.toArray⟩ := by
  rw [value_recordAll]
  simp [clear, Trace.empty]

end Recorder

namespace Postfix

open Arithmetic

variable {stack : List Float} {t op : Token} {r : Recorder}

theorem step_literal (h : t.kind.isOperand = true) :
    step stack t r = pure ⟨(operand t).map (· :: stack), r⟩ := by
  simp [step, h]

theorem step_negation (h : op.kind = .neg) (value : Float) :
    step (value :: stack) op r =
      r.record (negationStep value (-value)) >>= fun q => pure ⟨.ok (-value :: stack), q⟩ := by
  simp [step, h, Kind.isOperand, Kind.arity, applyNegation]
  rfl

theorem step_operation (h : op.kind.arity = some .binary) (lhs rhs : Float) :
    step (rhs :: lhs :: stack) op r =
      match apply op lhs rhs with
      | .error err => pure ⟨.error err, r⟩
      | .ok value => r.record (operationStep op lhs rhs value) >>= fun q =>
          pure ⟨.ok (value :: stack), q⟩ := by
  simp only [step, Kind.isOperand_of_binary h, h, applyBinary]
  cases apply op lhs rhs with
  | error err => rfl
  | ok value => rfl

/-- Execution goes on behind the listing of a tree with the value of the tree on the stack, or ends
there if the tree has none. -/
theorem run_postorder {e : Tree} (h : e.WellKinded) (stack : List Float) (r : Recorder)
    (rest : List Token) :
    run stack r (e.postorder ++ rest) =
      match e.evaluate with
      | (.error err, steps) => r.recordAll steps >>= fun q => pure ⟨.error err, q⟩
      | (.ok value, steps) => r.recordAll steps >>= fun q => run (value :: stack) q rest := by
  induction e generalizing stack r rest with
  | literal t =>
    change run stack r (t :: rest) = _
    rw [run, step_literal h, Tree.evaluate]
    cases operand t with
    | error err => simp [Except.map]
    | ok value => simp [Except.map]
  | negation op e ih =>
    rw [Tree.postorder, List.append_assoc, ih h.2, Tree.evaluate]
    rcases e.evaluate with ⟨err | value, steps⟩
    · rfl
    · simp [run, step_negation h.1]
  | operation op lhs rhs ihl ihr =>
    rw [Tree.postorder, List.append_assoc, List.append_assoc, ihl h.2.1, Tree.evaluate]
    rcases lhs.evaluate with ⟨err | a, front⟩
    · rfl
    simp only [ihr h.2.2]
    rcases rhs.evaluate with ⟨err | b, back⟩
    · simp
    simp only [List.singleton_append, run, step_operation h.1]
    cases apply op a b with
    | error err => simp
    | ok value => simp

theorem execute_postorder {p : Postfix} {e : Tree} (hp : p.tokens = e.postorder)
    (h : e.WellKinded) (r : Recorder) :
    p.execute r =
      match e.evaluate with
      | (.error err, steps) => r.clear.recordAll steps >>= fun q => pure ⟨.error err, q⟩
      | (.ok value, steps) => r.clear.recordAll steps >>= fun q =>
          Logged.send .debug s!"result: {Number.render value}" >>= fun _ => pure ⟨.ok value, q⟩ := by
  have hrun := run_postorder h [] r.clear []
  rw [List.append_nil, ← hp] at hrun
  rw [execute, hrun]
  rcases e.evaluate with ⟨err | value, steps⟩
  · simp
  · simp [run]

end Postfix

end Calculator
