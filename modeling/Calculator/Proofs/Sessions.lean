import Calculator.Proofs.Execution
import Calculator.Session.History
import Mathlib

/-!
What a session keeps is never out of date. However a session came about, it stands where the stages
over its input leave a new session: before the scan, behind it, behind the rearrangement or behind
the execution. So every request to it is answered as a new session over the same input answers it,
and that is also the answer of an evaluation and of the stages called one by one.
-/
namespace Calculator

def Error.dropSteps : Error → Error
  | .lexical e => .lexical e
  | .syntactic e => .syntactic e
  | .runtime e _ => .runtime e .empty

/-- The stages called one by one, with nothing kept between them. -/
def staged (source : String) : Except Error Postfix.Execution := do
  let tokens ← (Token.scan source).mapError .lexical
  let p ← (Postfix.parse tokens).mapError .syntactic
  p.executeAlone.value.mapError (.runtime · .empty)

namespace Session

def scanned (input : String) (ts : List Token) : Session :=
  { new input with tokens := some ts }

def arranged (input : String) (ts : List Token) (p : Postfix) : Session :=
  { scanned input ts with sequence := some p }

def executed (input : String) (ts : List Token) (p : Postfix) : Session :=
  let o := (p.execute (.new false)).value
  { arranged input ts p with trace := o.recorder.trace, result := o.answer.toOption }

def answer (p : Postfix) : Except Error Float :=
  let o := (p.execute (.new false)).value
  o.answer.mapError (.runtime · o.recorder.trace)

/-- The stages can go three ways over an input. -/
theorem stages_cases (input : String) :
    (∃ e, Token.scan input = .error e) ∨
      (∃ ts e, Token.scan input = .ok ts ∧ Postfix.parse ts = .error e) ∨
      ∃ ts p, Token.scan input = .ok ts ∧ Postfix.parse ts = .ok p := by
  cases hscan : Token.scan input with
  | error e => exact Or.inl ⟨e, rfl⟩
  | ok ts =>
    cases hparse : Postfix.parse ts with
    | error e => exact Or.inr (Or.inl ⟨ts, e, rfl, hparse⟩)
    | ok p => exact Or.inr (Or.inr ⟨ts, p, rfl, hparse⟩)

section Stages

variable {input : String} {ts : List Token} {p : Postfix}

theorem scan_of_error {e : LexicalError} (h : Token.scan input = .error e) :
    (new input).scan = (.error (.lexical e), new input) := by
  simp [scan, new, h]

theorem scan_of_ok (h : Token.scan input = .ok ts) :
    (new input).scan = (.ok ts, scanned input ts) := by
  simp [scan, scanned, new, h]

theorem rearrange_of_error {e : SyntaxError} (h : Postfix.parse ts = .error e) :
    (scanned input ts).rearrange ts = (.error (.syntactic e), scanned input ts) := by
  rw [rearrange, h]
  rfl

theorem rearrange_of_ok (h : Postfix.parse ts = .ok p) :
    (scanned input ts).rearrange ts = (.ok p, arranged input ts p) := by
  rw [rearrange, h]
  rfl

/-- What the session kept of an earlier execution makes no difference to a later one. -/
theorem executeSequence_eq (s : Session) (p : Postfix) :
    s.executeSequence p =
      (answer p, { s with
        sequence := some p
        trace := (p.execute (.new false)).value.recorder.trace
        result := (p.execute (.new false)).value.answer.toOption }) := by
  have hanswer := p.answer_execute ⟨s.trace, false⟩
  have htrace := p.trace_execute ⟨s.trace, false⟩
  simp only [executeSequence, hanswer, htrace, answer]
  cases (p.execute (.new false)).value.answer with
  | error e => rfl
  | ok value => rfl

theorem parse_new_of_error {e : LexicalError} (h : Token.scan input = .error e) :
    (new input).parse = (.error (.lexical e), new input) := by
  simp only [parse, scan_of_error h]
  rfl

theorem parse_new_of_ok (h : Token.scan input = .ok ts) :
    (new input).parse = (scanned input ts).rearrange ts := by
  simp only [parse, scan_of_ok h]
  rfl

theorem execute_new_of_scan_error {e : LexicalError} (h : Token.scan input = .error e) :
    (new input).execute = (.error (.lexical e), new input) := by
  rw [execute_of_none rfl, parse_new_of_error h]

theorem execute_new_of_parse_error {e : SyntaxError} (hscan : Token.scan input = .ok ts)
    (hparse : Postfix.parse ts = .error e) :
    (new input).execute = (.error (.syntactic e), scanned input ts) := by
  rw [execute_of_none rfl, parse_new_of_ok hscan, rearrange_of_error hparse]

theorem execute_new_of_ok (hscan : Token.scan input = .ok ts) (hparse : Postfix.parse ts = .ok p) :
    (new input).execute = (answer p, executed input ts p) := by
  rw [execute_of_none rfl, parse_new_of_ok hscan, rearrange_of_ok hparse]
  exact executeSequence_eq (arranged input ts p) p

/-- All stages afresh are what an execution of a new session runs anyway. -/
theorem run_new (input : String) : (new input).run = (new input).execute := by
  rcases stages_cases input with ⟨e, hscan⟩ | ⟨ts, e, hscan, hparse⟩ | ⟨ts, p, hscan, hparse⟩
  · rw [execute_new_of_scan_error hscan, run, scan_of_error hscan]
  · have hagain : (scanned input ts).parse = (.error (.syntactic e), scanned input ts) :=
      rearrange_of_error hparse
    rw [execute_new_of_parse_error hscan hparse, run, scan_of_ok hscan]
    simp only [hagain]
  · have hagain : (scanned input ts).parse = (.ok p, arranged input ts p) :=
      rearrange_of_ok hparse
    rw [execute_new_of_ok hscan hparse, run, scan_of_ok hscan]
    simp only [hagain]
    exact executeSequence_eq (arranged input ts p) p

end Stages

/-- The session stands where the stages over its input lead. -/
inductive Current : Session → Prop
  | new (input : String) : Current (new input)
  | scanned {input : String} {ts : List Token} : Token.scan input = .ok ts →
      Current (scanned input ts)
  | arranged {input : String} {ts : List Token} {p : Postfix} : Token.scan input = .ok ts →
      Postfix.parse ts = .ok p → Current (arranged input ts p)
  | executed {input : String} {ts : List Token} {p : Postfix} : Token.scan input = .ok ts →
      Postfix.parse ts = .ok p → Current (executed input ts p)

section Requests

variable {s : Session}

theorem scan_eq_new (s : Session) : s.scan = (new s.input).scan := rfl

theorem run_eq_new (s : Session) : s.run = (new s.input).run := rfl

/-- A rearrangement looks at the input and the tokens only. -/
theorem parse_eq_new (h : Current s) : s.parse = (new s.input).parse := by
  cases h with
  | new input => rfl
  | scanned hscan => exact (parse_new_of_ok hscan).symm
  | arranged hscan hparse => exact (parse_new_of_ok hscan).symm
  | executed hscan hparse => exact (parse_new_of_ok hscan).symm

/-- A session without a sequence asks for one, and a sequence that is there is the one asked for. -/
theorem execute_eq_new (h : Current s) : s.execute = (new s.input).execute := by
  cases h with
  | new input => rfl
  | scanned hscan =>
    rw [execute_of_none rfl, execute_of_none rfl, parse_eq_new (.scanned hscan)]
  | arranged hscan hparse =>
    exact (executeSequence_eq _ _).trans (execute_new_of_ok hscan hparse).symm
  | executed hscan hparse =>
    exact (executeSequence_eq _ _).trans (execute_new_of_ok hscan hparse).symm

end Requests

section Reaching

variable {s : Session}

theorem current_scan_new (input : String) : Current (new input).scan.2 := by
  cases hscan : Token.scan input with
  | error e =>
    rw [scan_of_error hscan]
    exact .new input
  | ok ts =>
    rw [scan_of_ok hscan]
    exact .scanned hscan

theorem current_parse_new (input : String) : Current (new input).parse.2 := by
  rcases stages_cases input with ⟨e, hscan⟩ | ⟨ts, e, hscan, hparse⟩ | ⟨ts, p, hscan, hparse⟩
  · rw [parse_new_of_error hscan]
    exact .new input
  · rw [parse_new_of_ok hscan, rearrange_of_error hparse]
    exact .scanned hscan
  · rw [parse_new_of_ok hscan, rearrange_of_ok hparse]
    exact .arranged hscan hparse

theorem current_execute_new (input : String) : Current (new input).execute.2 := by
  rcases stages_cases input with ⟨e, hscan⟩ | ⟨ts, e, hscan, hparse⟩ | ⟨ts, p, hscan, hparse⟩
  · rw [execute_new_of_scan_error hscan]
    exact .new input
  · rw [execute_new_of_parse_error hscan hparse]
    exact .scanned hscan
  · rw [execute_new_of_ok hscan hparse]
    exact .executed hscan hparse

/-- No request leads away from where the stages lead, whether it succeeds or fails. -/
theorem Current.perform (h : Current s) (r : Request) : Current (s.perform r) := by
  cases r with
  | setInput input => exact .new input
  | scan => exact current_scan_new s.input
  | parse =>
    change Current s.parse.2
    rw [parse_eq_new h]
    exact current_parse_new s.input
  | execute =>
    change Current s.execute.2
    rw [execute_eq_new h]
    exact current_execute_new s.input
  | run =>
    change Current s.run.2
    rw [run_eq_new, run_new]
    exact current_execute_new s.input
  | copy => exact h

theorem Reachable.current (h : Reachable s) : Current s := by
  induction h with
  | new input => exact .new input
  | default => exact .new ""
  | perform r _ ih => exact ih.perform r

end Reaching

/-- Whatever a session keeps was found from its input, each part from the one before it. -/
structure Coherent (s : Session) : Prop where
  tokens : ∀ ts, s.tokens = some ts → Token.scan s.input = .ok ts
  sequence : ∀ p, s.sequence = some p → ∃ ts, s.tokens = some ts ∧ Postfix.parse ts = .ok p
  result : ∀ value, s.result = some value →
    ∃ p, s.sequence = some p ∧ p.executeAlone.value = .ok ⟨value, s.trace⟩
  trace : s.trace.isEmpty = false → ∃ p, s.sequence = some p ∧
    ∀ r, (p.execute r).value.recorder.trace = s.trace ∧
      (p.execute r).value.answer.toOption = s.result

theorem Current.coherent {s : Session} (h : Current s) : Coherent s := by
  cases h with
  | new input => exact ⟨nofun, nofun, nofun, nofun⟩
  | scanned hscan =>
    refine ⟨?_, nofun, nofun, nofun⟩
    intro ts hts
    cases hts
    exact hscan
  | @arranged input ts p hscan hparse =>
    refine ⟨?_, ?_, nofun, nofun⟩
    · intro ts hts
      cases hts
      exact hscan
    · intro p hp
      cases hp
      exact ⟨ts, rfl, hparse⟩
  | @executed input ts p hscan hparse =>
    refine ⟨?_, ?_, ?_, ?_⟩
    · intro ts hts
      cases hts
      exact hscan
    · intro p hp
      cases hp
      exact ⟨ts, rfl, hparse⟩
    · intro value hvalue
      refine ⟨p, rfl, ?_⟩
      change (p.execute (.new false)).value.answer.toOption = some value at hvalue
      rw [p.value_executeAlone]
      cases hanswer : (p.execute (.new false)).value.answer with
      | error e =>
        rw [hanswer] at hvalue
        cases hvalue
      | ok found =>
        rw [hanswer] at hvalue
        cases hvalue
        rfl
    · intro _
      refine ⟨p, rfl, ?_⟩
      intro r
      rw [p.answer_execute r, p.trace_execute r]
      exact ⟨rfl, rfl⟩

/-- An evaluation answers as a new session does, whether or not it keeps the steps. -/
theorem value_evaluate (input : String) (debug : Bool) :
    (evaluate input debug).map Evaluation.value = (new input).execute.1 := by
  rcases stages_cases input with ⟨e, hscan⟩ | ⟨ts, e, hscan, hparse⟩ | ⟨ts, p, hscan, hparse⟩
  · rw [execute_new_of_scan_error hscan, evaluate_of_scan_error hscan]
    rfl
  · rw [execute_new_of_parse_error hscan hparse, evaluate_of_parse_error hscan hparse]
    rfl
  · rw [execute_new_of_ok hscan hparse]
    have hanswer := p.answer_execute (.new debug)
    have htrace := p.trace_execute (.new debug)
    simp only [evaluate, evaluateLogged, hscan, hparse, Logged.value_bind, hanswer, htrace, answer]
    cases (p.execute (.new false)).value.answer with
    | error e => rfl
    | ok value => rfl

theorem staged_eq (input : String) :
    staged input = match (new input).execute with
      | (.error e, _) => .error e.dropSteps
      | (.ok value, after) => .ok ⟨value, after.trace⟩ := by
  rcases stages_cases input with ⟨e, hscan⟩ | ⟨ts, e, hscan, hparse⟩ | ⟨ts, p, hscan, hparse⟩
  · rw [execute_new_of_scan_error hscan, staged, hscan]
    rfl
  · rw [execute_new_of_parse_error hscan hparse, staged, hscan]
    change (Postfix.parse ts).mapError _ >>= _ = _
    rw [hparse]
    rfl
  · rw [execute_new_of_ok hscan hparse, staged, hscan]
    change (Postfix.parse ts).mapError _ >>= _ = _
    rw [hparse]
    change p.executeAlone.value.mapError _ = _
    rw [p.value_executeAlone]
    simp only [answer, executed]
    cases (p.execute (.new false)).value.answer with
    | error e => rfl
    | ok value => rfl

/-- However a session came about, nothing that it keeps is out of date. -/
theorem coherent_of_reachable {s : Session} (h : Reachable s) : Coherent s := h.current.coherent

/-- The tokens of `2*3/0`. -/
def quotientTokens : List Token :=
  [⟨.number, "2", ⟨1, 1⟩⟩, ⟨.mul, "*", ⟨2, 1⟩⟩, ⟨.number, "3", ⟨3, 1⟩⟩, ⟨.div, "/", ⟨4, 1⟩⟩,
    ⟨.number, "0", ⟨5, 1⟩⟩]

def quotientSequence : Postfix :=
  ⟨[⟨.number, "2", ⟨1, 1⟩⟩, ⟨.number, "3", ⟨3, 1⟩⟩, ⟨.mul, "*", ⟨2, 1⟩⟩,
    ⟨.number, "0", ⟨5, 1⟩⟩, ⟨.div, "/", ⟨4, 1⟩⟩]⟩

theorem execute_quotient :
    (new "2*3/0").execute =
      (.error (.runtime (.divisionByZero ⟨4, 1⟩) ⟨#["2 * 3 = 6"]⟩),
        ⟨"2*3/0", some quotientTokens, some quotientSequence, ⟨#["2 * 3 = 6"]⟩, none⟩) := by
  have hscan : Token.scan "2*3/0" = .ok quotientTokens := by cbv
  have hanswer : (quotientSequence.execute (.new false)).value.answer =
      .error (.divisionByZero ⟨4, 1⟩) := rfl
  have htrace : (quotientSequence.execute (.new false)).value.recorder.trace =
      ⟨#["2 * 3 = 6"]⟩ := by decide +kernel
  have hexecute := execute_new_of_ok hscan (p := quotientSequence) rfl
  simp only [answer, executed, hanswer, htrace] at hexecute
  exact hexecute

/-- A session that has failed over one input, was given `2*3/0` and has failed again. -/
def afterQuotient : Session :=
  (((new "1 +").perform .run).perform (.setInput "2*3/0")).perform .execute

theorem reachable_afterQuotient : Reachable afterQuotient :=
  .perform .execute (.perform (.setInput "2*3/0") (.perform .run (.new "1 +")))

theorem afterQuotient_eq : afterQuotient =
    ⟨"2*3/0", some quotientTokens, some quotientSequence, ⟨#["2 * 3 = 6"]⟩, none⟩ :=
  congrArg Prod.snd execute_quotient

theorem coherent_afterQuotient :
    Reachable afterQuotient ∧ afterQuotient.trace = ⟨#["2 * 3 = 6"]⟩ ∧
      afterQuotient.result = none ∧ Coherent afterQuotient := by
  refine ⟨reachable_afterQuotient, ?_, ?_, coherent_of_reachable reachable_afterQuotient⟩
  · rw [afterQuotient_eq]
  · rw [afterQuotient_eq]

/-- A request is answered, and leaves the session, as if it were the first one over the input. The
answer of an execution is that of an evaluation, and that of the stages called one by one. -/
theorem answers_depend_on_input {s : Session} (h : Reachable s) :
    s.scan = (new s.input).scan ∧ s.parse = (new s.input).parse ∧
      s.execute = (new s.input).execute ∧ s.run = (new s.input).run ∧
        (∀ debug, s.execute.1 = (evaluate s.input debug).map Evaluation.value ∧
          s.run.1 = (evaluate s.input debug).map Evaluation.value) ∧
          staged s.input = match s.execute with
            | (.error e, _) => .error e.dropSteps
            | (.ok value, after) => .ok ⟨value, after.trace⟩ := by
  have hexecute := execute_eq_new h.current
  refine ⟨scan_eq_new s, parse_eq_new h.current, hexecute, run_eq_new s, ?_, ?_⟩
  · intro debug
    rw [hexecute, run_eq_new, run_new, value_evaluate]
    exact ⟨rfl, rfl⟩
  · rw [hexecute]
    exact staged_eq s.input

theorem answers_afterQuotient :
    Reachable afterQuotient ∧
      afterQuotient.execute.1 =
        .error (.runtime (.divisionByZero ⟨4, 1⟩) ⟨#["2 * 3 = 6"]⟩) ∧
      afterQuotient.run = (new "2*3/0").run ∧
      ∀ debug, afterQuotient.run.1 = (evaluate "2*3/0" debug).map Evaluation.value := by
  obtain ⟨-, -, hexecute, hrun, hanswer, -⟩ := answers_depend_on_input reachable_afterQuotient
  have hinput : afterQuotient.input = "2*3/0" := by rw [afterQuotient_eq]
  rw [hinput] at hexecute hrun hanswer
  refine ⟨reachable_afterQuotient, ?_, hrun, fun debug => (hanswer debug).2⟩
  rw [hexecute, execute_quotient]

end Session

end Calculator
