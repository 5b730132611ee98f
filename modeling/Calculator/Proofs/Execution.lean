import Calculator.Postfix.Execution

/-!
What an execution finds does not depend on the recorder it is given. The steps that the recorder
holds are dropped before the first token, and whether it echoes decides only how loud the messages
are. So one execution of a sequence tells the answer and the trace of all of them.
-/
namespace Calculator.Postfix

open Arithmetic

/-- One token has the same answer and the same trace behind it, loud or silent. -/
theorem step_echo (stack : List Float) (t : Token) (trace : Trace) :
    ∃ answer after, ∀ echo,
      (step stack t ⟨trace, echo⟩).value = ⟨answer, ⟨after, echo⟩⟩ := by
  unfold step
  split
  · exact ⟨_, trace, fun echo => rfl⟩
  split
  · rename_i value below _
    exact ⟨.ok (-value :: below), trace.push (negationStep value (-value)), fun echo => rfl⟩
  · rename_i rhs lhs below _
    cases happly : apply t lhs rhs with
    | error e =>
      refine ⟨.error e, trace, fun echo => ?_⟩
      simp [applyBinary, happly, Except.map]
    | ok value =>
      refine ⟨.ok (value :: below), trace.push (operationStep t lhs rhs value), fun echo => ?_⟩
      simp only [applyBinary, happly]
      rfl
  · exact ⟨_, trace, fun echo => rfl⟩

/-- By induction on the tokens: each step hands the same trace on to the next. -/
theorem run_echo (stack : List Float) (trace : Trace) (ts : List Token) :
    ∃ answer after, ∀ echo,
      (run stack ⟨trace, echo⟩ ts).value = ⟨answer, ⟨after, echo⟩⟩ := by
  induction ts generalizing stack trace with
  | nil => exact ⟨.ok stack, trace, fun echo => rfl⟩
  | cons t rest ih =>
    obtain ⟨answer, mid, hstep⟩ := step_echo stack t trace
    cases answer with
    | error e =>
      refine ⟨.error e, mid, fun echo => ?_⟩
      simp [run, hstep echo]
    | ok next =>
      obtain ⟨answer, after, hrun⟩ := ih next mid
      refine ⟨answer, after, fun echo => ?_⟩
      simp [run, hstep echo, hrun echo]

/-- An answer and a trace that the executions of a sequence with all recorders share. -/
theorem execute_echo (p : Postfix) :
    ∃ answer after, ∀ r : Recorder, (p.execute r).value = ⟨answer, ⟨after, r.echo⟩⟩ := by
  obtain ⟨answer, after, hrun⟩ := run_echo [] .empty p.tokens
  have hclear : ∀ r : Recorder, (run [] r.clear p.tokens).value = ⟨answer, ⟨after, r.echo⟩⟩ :=
    fun r => hrun r.echo
  match answer with
  | .error e => exact ⟨.error e, after, fun r => by simp [execute, hclear r]⟩
  | .ok [value] => exact ⟨.ok value, after, fun r => by simp [execute, hclear r]⟩
  | .ok [] | .ok (_ :: _ :: _) =>
    refine ⟨.error (.malformedPostfix p.lastPosition), after, fun r => ?_⟩
    simp [execute, hclear r]

theorem answer_execute (p : Postfix) (r : Recorder) :
    (p.execute r).value.answer = (p.execute (.new false)).value.answer := by
  obtain ⟨answer, after, h⟩ := p.execute_echo
  rw [h r, h (.new false)]

theorem trace_execute (p : Postfix) (r : Recorder) :
    (p.execute r).value.recorder.trace = (p.execute (.new false)).value.recorder.trace := by
  obtain ⟨answer, after, h⟩ := p.execute_echo
  rw [h r, h (.new false)]

theorem value_executeAlone (p : Postfix) :
    p.executeAlone.value = (p.execute (.new false)).value.answer.map
      fun value => ⟨value, (p.execute (.new false)).value.recorder.trace⟩ := rfl

/-- Alone, a sequence has the value that it has with any recorder. -/
theorem map_value_executeAlone (p : Postfix) (r : Recorder) :
    p.executeAlone.value.map Execution.value = (p.execute r).value.answer := by
  rw [value_executeAlone, answer_execute p r]
  cases (p.execute (.new false)).value.answer with
  | error err => rfl
  | ok value => rfl

end Calculator.Postfix
