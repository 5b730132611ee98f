import Calculator.Proofs.Derivations
import Calculator.Proofs.Listings

/-!
Sequences executed one after the other with one recorder. Each of them starts with no steps, so that
its answer and its trace are those of an execution alone. The trace then has one step for each
operator that has been executed, in their order, and none for the token at which the execution
stops: the step is recorded only when the operator has its result.
-/
namespace Calculator

open Arithmetic

def Token.operators (ts : List Token) : List Token := ts.filter fun t => t.kind.isOperator

namespace Postfix

/-- Executes sequences one after the other, each with the recorder that the one before it has
left. -/
def executeInTurn (r : Recorder) : List Postfix → Logged (List (Outcome Float))
  | [] => return []
  | p :: ps => do
    let o ← p.execute r
    let later ← executeInTurn o.recorder ps
    return o :: later

/-- What keeps a token from being executed: its text is no number, its operands are missing or it
takes none, or its divisor is zero. -/
def FailsAt (t : Token) (stack : List Float) (e : RuntimeError) : Prop :=
  ((t.Unreadable ∨ ¬Supplied t stack) ∧ e = .malformedPostfix t.position) ∨
    (Supplied t stack ∧ ZeroDivisor t stack ∧ e = refusal t)

/-- The tokens that an execution has executed when it comes to its answer: all of them if it ends
with one value or with another number of values, and those in front of the token at which it
stops. -/
inductive Executes (p : Postfix) : List Token → Except RuntimeError Float → Prop
  | value {value : Float} : Reaches p.tokens [value] → Executes p p.tokens (.ok value)
  | leftover {stack : List Float} : Reaches p.tokens stack → stack.length ≠ 1 →
      Executes p p.tokens (.error (.malformedPostfix p.lastPosition))
  | stop {front rest : List Token} {t : Token} {stack : List Float} {e : RuntimeError} :
      p.tokens = front ++ t :: rest → Reaches front stack → FailsAt t stack e →
      Executes p front (.error e)

def Writes (op : Token) (stack : List Float) (step : String) : Prop :=
  (op.kind = .neg ∧ ∃ value below, stack = value :: below ∧
    step = "-(" ++ Number.render value ++ ") = " ++ Number.render (-value)) ∨
  (op.kind.arity = some .binary ∧ ∃ rhs lhs below value, stack = rhs :: lhs :: below ∧
    apply op lhs rhs = .ok value ∧
    step = Number.render lhs ++ " " ++ op.lexeme ++ " " ++ Number.render rhs ++ " = " ++
      Number.render value)

/-- The steps are those of executed tokens: one for each operator, in the order of the operators,
made of the values that stand on the stack when its turn comes. -/
structure StepsOf (executed : List Token) (steps : List String) : Prop where
  count : steps.length = (Token.operators executed).length
  written : ∀ front op rest, executed = front ++ op :: rest → op.kind.isOperator = true →
    ∃ stack step, Reaches front stack ∧ steps[(Token.operators front).length]? = some step ∧
      Writes op stack step

section Steps

variable {stack next : List Float} {t op : Token} {front rest executed : List Token}

theorem effect_eq_error_iff_failsAt {e : RuntimeError} :
    effect stack t = .error e ↔ FailsAt t stack e := by
  by_cases hsupplied : Supplied t stack
  · rw [effect_eq_error_iff hsupplied]
    simp [FailsAt, hsupplied]
  · rw [effect_of_not_supplied hsupplied]
    simp [FailsAt, hsupplied, eq_comm]

/-- Operators make a reduction of the values on the stack when they are executed, and operands make
none. -/
theorem length_reduction? (h : effect stack t = .ok next) :
    (reduction? stack t).toList.length = (Token.operators [t]).length := by
  rcases (supplied_of_effect h).cases with
    hoperand | ⟨hneg, value, below, rfl⟩ | ⟨hbinary, rhs, lhs, below, rfl⟩
  · simp [reduction?_of_isOperand hoperand, Token.operators,
      Kind.isOperator_of_isOperand hoperand]
  · simp [reduction?, Token.operators, Kind.isOperator, Kind.arity, hneg]
  · simp [reduction?, Token.operators, Kind.isOperator, hbinary]

theorem reductions_append (h : front.foldlM effect stack = .ok next) (rest : List Token) :
    reductions stack (front ++ rest) = reductions stack front ++ reductions next rest := by
  induction front generalizing stack with
  | nil =>
    cases h
    rfl
  | cons t front ih =>
    rw [List.cons_append, reductions, reductions]
    cases hstep : effect stack t with
    | error e =>
      rw [foldlM_of_error hstep] at h
      cases h
    | ok mid =>
      rw [foldlM_of_ok hstep] at h
      simp only [ih h, List.append_assoc]

/-- By induction on the tokens: there is one reduction for each operator. -/
theorem length_reductions (h : front.foldlM effect stack = .ok next) :
    (reductions stack front).length = (Token.operators front).length := by
  induction front generalizing stack with
  | nil => rfl
  | cons t front ih =>
    have hsplit : Token.operators (t :: front) = Token.operators [t] ++ Token.operators front :=
      List.filter_append (p := fun u : Token => u.kind.isOperator) [t] front
    cases hstep : effect stack t with
    | error e =>
      rw [foldlM_of_error hstep] at h
      cases h
    | ok mid =>
      rw [foldlM_of_ok hstep] at h
      simp only [reductions, hstep, List.length_append, hsplit, ih h, length_reduction? hstep]

/-- The reduction of an operator is written as its step. -/
theorem exists_reduction_of_effect (h : effect stack op = .ok next)
    (hop : op.kind.isOperator = true) :
    ∃ r, reduction? stack op = some r ∧ Writes op stack r.step := by
  rcases (supplied_of_effect h).cases with
    hoperand | ⟨hneg, value, below, rfl⟩ | ⟨hbinary, rhs, lhs, below, rfl⟩
  · rw [Kind.isOperator_of_isOperand hoperand] at hop
    cases hop
  · refine ⟨.negation value, by simp [reduction?, hneg, Kind.arity],
      .inl ⟨hneg, value, below, rfl, ?_⟩⟩
    refine String.toList_inj.mp ?_
    simp [Reduction.step, Reduction.expression, Reduction.result]
    rfl
  · refine ⟨.operation op lhs rhs, by simp [reduction?, hbinary], .inr ⟨hbinary, ?_⟩⟩
    rw [effect_operation hbinary] at h
    cases happly : apply op lhs rhs with
    | error e =>
      rw [happly] at h
      cases h
    | ok value =>
      obtain rfl := apply_eq_result hbinary happly
      refine ⟨rhs, lhs, below, _, rfl, happly, ?_⟩
      refine String.toList_inj.mp ?_
      simp [Reduction.step, Reduction.expression, Reduction.result]
      rfl

/-- The reductions of executed tokens are written as their steps. -/
theorem Reaches.stepsOf (h : Reaches executed stack) :
    StepsOf executed ((reductions [] executed).map Reduction.step) where
  count := by rw [List.length_map, length_reductions h]
  written := by
    rintro front op rest rfl hop
    obtain ⟨before, after, hfront, hstep⟩ := h.executed
    obtain ⟨r, hr, hwrites⟩ := exists_reduction_of_effect hstep hop
    refine ⟨before, r.step, hfront, ?_, hwrites⟩
    rw [reductions_append hfront, reductions, hstep, ← length_reductions hfront]
    simp [hr]

end Steps

section Executions

/-- The token at which an execution stops makes no step, and those behind it are not reached. -/
theorem exists_executes (p : Postfix) (r : Recorder) :
    ∃ executed, Executes p executed (p.execute r).value.answer ∧
      StepsOf executed (p.execute r).value.recorder.trace.steps.toList := by
  rw [trace_execute_eq]
  rcases answer_cases p r with ⟨value, hreach, hanswer⟩ | ⟨stack, hreach, hlength, hanswer⟩ |
    ⟨front, t, rest, stack, e, hsplit, hreach, herror, hanswer⟩
  · rw [hanswer]
    exact ⟨p.tokens, .value hreach, hreach.stepsOf⟩
  · rw [hanswer]
    exact ⟨p.tokens, .leftover hreach hlength, hreach.stepsOf⟩
  · rw [hanswer]
    refine ⟨front, .stop hsplit hreach (effect_eq_error_iff_failsAt.mp herror), ?_⟩
    have hreductions : reductions [] p.tokens = reductions [] front := by
      rw [hsplit, reductions_append hreach, reductions, herror, List.append_nil]
    rw [hreductions]
    exact hreach.stepsOf

theorem execute_eq_alone (p : Postfix) (r : Recorder) (echo : Bool) :
    (p.execute (.new echo)).value =
      ⟨(p.execute r).value.answer, ⟨(p.execute r).value.recorder.trace, echo⟩⟩ := by
  obtain ⟨answer, after, h⟩ := p.execute_echo
  rw [h r, h (.new echo)]
  rfl

theorem echo_execute (p : Postfix) (r : Recorder) : (p.execute r).value.recorder.echo = r.echo := by
  obtain ⟨answer, after, h⟩ := p.execute_echo
  rw [h r]

/-- Of sequences that are executed in turn with one recorder, each has the answer and the trace that
it has alone with a new one, loud or silent. Its trace has the steps of the tokens that it has
executed and no others, and the recorder stays as loud as it was. -/
theorem executeInTurn_each_alone (r : Recorder) (ps : List Postfix) :
    List.Forall₂ (fun p o =>
      p.executeAlone.value.map Execution.value = o.answer ∧
        (∀ echo, (p.execute (.new echo)).value = ⟨o.answer, ⟨o.recorder.trace, echo⟩⟩) ∧
        (∃ executed, Executes p executed o.answer ∧
          StepsOf executed o.recorder.trace.steps.toList) ∧
        o.recorder.echo = r.echo)
      ps (executeInTurn r ps).value := by
  induction ps generalizing r with
  | nil => exact .nil
  | cons p ps ih =>
    refine .cons ⟨p.map_value_executeAlone r, p.execute_eq_alone r, p.exists_executes r,
      p.echo_execute r⟩ ?_
    have hlater := ih (p.execute r).value.recorder
    rw [echo_execute] at hlater
    exact hlater

/-- The sequence `2 3 * 0 /` stops at its division, `4 5` leaves two values, and `6` is negated; none
of them shows in the trace of the next. -/
theorem executeInTurn_quotient_pair_negation :
    let quotient : Postfix := ⟨[⟨.number, "2", ⟨1, 1⟩⟩, ⟨.number, "3", ⟨3, 1⟩⟩,
      ⟨.mul, "*", ⟨2, 1⟩⟩, ⟨.number, "0", ⟨5, 1⟩⟩, ⟨.div, "/", ⟨4, 1⟩⟩]⟩
    let pair : Postfix := ⟨[⟨.number, "4", ⟨1, 1⟩⟩, ⟨.number, "5", ⟨3, 1⟩⟩]⟩
    let negation : Postfix := ⟨[⟨.number, "6", ⟨2, 1⟩⟩, ⟨.neg, "-", ⟨1, 1⟩⟩]⟩
    ∃ a b c, (executeInTurn (.new true) [quotient, pair, negation]).value = [a, b, c] ∧
      a.answer = .error (.divisionByZero ⟨4, 1⟩) ∧ a.recorder = ⟨⟨#["2 * 3 = 6"]⟩, true⟩ ∧
      b.answer = .error (.malformedPostfix ⟨3, 1⟩) ∧ b.recorder = ⟨⟨#[]⟩, true⟩ ∧
      c.recorder = ⟨⟨#["-(6) = -6"]⟩, true⟩ ∧
      (negation.execute (.new false)).value = ⟨c.answer, ⟨⟨#["-(6) = -6"]⟩, false⟩⟩ := by
  intro quotient pair negation
  have hall := executeInTurn_each_alone (.new true) [quotient, pair, negation]
  have ha : (quotient.execute (.new true)).value.recorder = ⟨⟨#["2 * 3 = 6"]⟩, true⟩ := by
    decide +kernel
  have hb : (pair.execute ⟨⟨#["2 * 3 = 6"]⟩, true⟩).value.recorder = ⟨⟨#[]⟩, true⟩ := by
    decide +kernel
  have hc : (negation.execute ⟨⟨#[]⟩, true⟩).value.recorder = ⟨⟨#["-(6) = -6"]⟩, true⟩ := by
    decide +kernel
  have houtcomes : (executeInTurn (.new true) [quotient, pair, negation]).value =
      [(quotient.execute (.new true)).value, (pair.execute ⟨⟨#["2 * 3 = 6"]⟩, true⟩).value,
        (negation.execute ⟨⟨#[]⟩, true⟩).value] := by
    simp [executeInTurn, ha, hb]
  rw [houtcomes] at hall
  simp only [List.forall₂_cons] at hall
  obtain ⟨-, -, ⟨-, halone, -, -⟩, -⟩ := hall
  refine ⟨_, _, _, houtcomes, rfl, ha, rfl, hb, hc, ?_⟩
  rw [halone false, hc]

end Executions

end Postfix

end Calculator
