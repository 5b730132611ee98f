import Calculator.Proofs.Derivations
import Calculator.Proofs.Faults
import Calculator.Proofs.Sessions

/-!
The log of an evaluation is a transcript of its results. A recorder and the log stay in step: what
has been sent about steps is at every moment the trace of the recorder, line by line, also when the
next token fails. Whether steps are echoed decides how loud these messages are, and whether a trace
is returned, and nothing else.
-/
namespace Calculator

def linesOf (text : String) : List String := (text.toList.splitOn '\n').dropLast.map String.ofList

def told {α : Type} (tell : α → String) : Option α → List Message
  | some a => [⟨.debug, tell a⟩]
  | none => []

namespace Recorder

def messages (r : Recorder) : List Message := r.trace.frames.map fun line => ⟨r.level, line⟩

theorem messages_record (r : Recorder) (step : String) :
    (r.record step).value.messages = r.messages ++ (r.record step).log := by
  change (r.trace.push step).frames.map _ = r.trace.frames.map _ ++ [_]
  rw [Trace.frames_push, List.map_append]
  rfl

end Recorder

namespace Postfix

open Arithmetic

theorem messages_step (stack : List Float) (t : Token) (r : Recorder) :
    (step stack t r).value.recorder.messages = r.messages ++ (step stack t r).log := by
  unfold step
  split
  · exact (List.append_nil _).symm
  split
  · simp only [applyNegation]
    exact r.messages_record _
  · rename_i rhs lhs below _
    cases happly : apply t lhs rhs with
    | error e => simp [applyBinary, happly]
    | ok value =>
      simp only [applyBinary, happly]
      exact r.messages_record _
  · exact (List.append_nil _).symm

/-- By induction on the tokens: the messages of each step follow those of the steps before it. -/
theorem messages_run (stack : List Float) (r : Recorder) (ts : List Token) :
    (run stack r ts).value.recorder.messages = r.messages ++ (run stack r ts).log := by
  induction ts generalizing stack r with
  | nil => exact (List.append_nil _).symm
  | cons t rest ih =>
    have hstep := messages_step stack t r
    rw [run, Logged.value_bind, Logged.log_bind]
    cases hanswer : (step stack t r).value.answer with
    | error e =>
      simp only [Logged.value_pure, Logged.log_pure, List.append_nil]
      exact hstep
    | ok next =>
      simp only [ih next, hstep, List.append_assoc]

/-- An execution sends its steps, and behind them its result if it has one. -/
theorem log_execute (p : Postfix) (r : Recorder) :
    (p.execute r).log = (p.execute r).value.recorder.messages ++
      told (fun value => s!"result: {Number.render value}") (p.execute r).value.answer.toOption := by
  have hrun := messages_run [] r.clear p.tokens
  have hclear : r.clear.messages = [] := rfl
  rw [hclear, List.nil_append] at hrun
  rw [execute, Logged.value_bind, Logged.log_bind, ← hrun]
  rcases (run [] r.clear p.tokens).value with ⟨e | stack, after⟩
  · rfl
  · rcases stack with _ | ⟨value, _ | ⟨below, rest⟩⟩ <;> rfl

end Postfix

section Lines

theorem toList_ended (lines : List String) :
    (String.join (lines.map fun line => line ++ "\n")).toList =
      ['\n'].intercalate (lines.map String.toList ++ [[]]) := by
  induction lines with
  | nil => rfl
  | cons line rest ih =>
    rw [List.map_cons, List.map_cons, List.cons_append,
      List.intercalate_cons_of_ne_nil (by simp), ← ih]
    simp

/-- A text of ended lines is cut into these lines, if they are lines. -/
theorem linesOf_join {lines : List String} (h : ∀ line ∈ lines, '\n' ∉ line.toList) :
    linesOf (String.join (lines.map fun line => line ++ "\n")) = lines := by
  rw [linesOf, toList_ended, List.splitOn_intercalate '\n' ?_ (by simp)]
  · simp [Function.comp_def]
  · intro text htext
    rcases List.mem_append.mp htext with hline | hlast
    · obtain ⟨line, hmem, rfl⟩ := List.mem_map.mp hline
      exact h line hmem
    · rw [List.mem_singleton.mp hlast]
      exact List.not_mem_nil

/-- No number is written over two lines. -/
theorem Number.newline_notMem_render (x : Float) : '\n' ∉ (render x).toList := by
  have hunsigned : ∀ y : Float, Unsigned y → '\n' ∉ (render y).toList := by
    intro y hy hmem
    obtain ⟨k, hk, hspells, -⟩ := hy.render_literal
    have hblank := hspells.isBlank_eq_false (by rintro rfl; cases hk) hmem
    exact absurd hblank (by decide)
  cases hx : x.isFinite with
  | true =>
    rcases unsigned_or_neg hx with hplain | hplain
    · exact hunsigned x hplain
    · have hrender := hplain.render_neg
      rw [neg_neg] at hrender
      rw [hrender]
      have hrest := hunsigned _ hplain
      simpa using hrest
  | false =>
    have hinfinite : x.toModel.unpack.isFinite = false := hx
    unfold render
    cases hu : x.toModel.unpack with
    | notANumber => decide
    | infinity sign => cases sign <;> decide
    | zero sign => rw [hu] at hinfinite; cases hinfinite
    | finite sign m e hm => rw [hu] at hinfinite; cases hinfinite

theorem Trace.newline_notMem_frame {step : String} (h : '\n' ∉ step.toList) (index : Nat) :
    '\n' ∉ (frame index step).toList := by
  have hindex : '\n' ∉ (toString index).toList := by
    intro hmem
    have hdigits : (toString index).toList = Nat.toDigits 10 index := Nat.toList_repr
    rw [hdigits] at hmem
    have hdigit := Nat.isDigit_of_mem_toDigits (by decide) (by decide) hmem
    exact absurd hdigit (by decide)
  have hframe : frame index step = "[" ++ toString index ++ "] " ++ step := rfl
  rw [hframe]
  simp only [String.toList_append, List.mem_append, not_or]
  exact ⟨⟨⟨by decide, hindex⟩, by decide⟩, h⟩

theorem Reduction.newline_notMem_step {r : Reduction} {ts : List Token} (hts : Token.Spelled ts)
    (h : r.MadeOf ts) : '\n' ∉ r.step.toList := by
  cases r with
  | negation value =>
    have hstep : (negation value).step =
        "-(" ++ Number.render value ++ ")" ++ " = " ++ Number.render (-value) := rfl
    rw [hstep]
    simp [Number.newline_notMem_render]
  | operation op lhs rhs =>
    obtain ⟨hop, hbinary, -⟩ := h
    have hlexeme : '\n' ∉ op.lexeme.toList := by
      intro hmem
      have hkind : op.kind ≠ .whitespace := by
        intro hk
        rw [hk] at hbinary
        cases hbinary
      have hblank := (hts op hop).isBlank_eq_false hkind hmem
      exact absurd hblank (by decide)
    have hstep : (operation op lhs rhs).step = Number.render lhs ++ " " ++ op.lexeme ++ " " ++
        Number.render rhs ++ " = " ++ Number.render (Arithmetic.result op.kind lhs rhs) := rfl
    rw [hstep]
    simp [Number.newline_notMem_render, hlexeme]

/-- The trace of an evaluation is shown with one line for each step. -/
theorem linesOf_render {source : String} {debug : Bool} {trace : Trace}
    (h : tracePart? (evaluate source debug) = some trace) :
    linesOf trace.render = trace.frames := by
  obtain ⟨ts, p, hscan, hparse, htrace⟩ := exists_execution_of_trace h
  have hspelled : Token.Spelled p.tokens := by
    obtain ⟨e, hlist, -, hmem⟩ := Postfix.exists_tree_of_parse hparse
    intro t ht
    rw [hlist] at ht
    exact (Token.scan_iff_scanned.mp hscan).spelled t (List.mem_of_mem_filter (hmem t ht))
  have hsteps : ∀ step ∈ trace.steps.toList, '\n' ∉ step.toList := by
    rw [htrace]
    intro step hstep
    obtain ⟨r, hr, rfl⟩ := List.mem_map.mp hstep
    exact Reduction.newline_notMem_step hspelled (Postfix.madeOf_of_mem_reductions hr)
  refine linesOf_join fun line hline => ?_
  obtain ⟨index, hindex, rfl⟩ := List.mem_mapIdx.mp hline
  exact Trace.newline_notMem_frame (hsteps _ (List.getElem_mem hindex)) index

end Lines

def Evaluation.silent (e : Evaluation) : Evaluation := { e with trace := none }

/-- What there is to tell about an evaluation, from the results of its stages: the number of tokens,
the rearranged sequence, the steps of the trace, and the value. -/
def account (source : String) (level : Level) : List Message :=
  told (fun ts => s!"scanned {ts.length} tokens") (Token.scan source).toOption ++
  told (fun p => s!"postfix: {p.render}")
    ((Token.scan source).toOption.bind fun ts => (Postfix.parse ts).toOption) ++
  ((tracePart? (evaluate source true)).elim [] fun trace =>
    trace.frames.map fun line => ⟨level, line⟩) ++
  told (fun e => s!"result: {Number.render e.value}") (evaluate source true).toOption

section Evaluations

variable {source : String} {ts : List Token} {p : Postfix}

/-- Behind a sequence that is parsed, one execution tells the answer with debugging and without. -/
theorem exists_answer_of_parse (hscan : Token.scan source = .ok ts)
    (hparse : Postfix.parse ts = .ok p) :
    ∃ answer trace, ∀ debug,
      (p.execute (.new debug)).value = ⟨answer, ⟨trace, debug⟩⟩ ∧
      evaluate source debug = match answer with
        | .error e => .error (.runtime e trace)
        | .ok value => .ok ⟨value, if debug then some trace else none⟩ := by
  obtain ⟨answer, trace, hexecute⟩ := p.execute_echo
  refine ⟨answer, trace, fun debug => ⟨hexecute (.new debug), ?_⟩⟩
  simp only [evaluate, evaluateLogged, hscan, hparse, Logged.value_bind, hexecute (.new debug)]
  cases answer with
  | error e => rfl
  | ok value => rfl

theorem evaluate_silent (source : String) :
    evaluate source false = (evaluate source true).map Evaluation.silent := by
  rcases Session.stages_cases source with
    ⟨e, hscan⟩ | ⟨ts, e, hscan, hparse⟩ | ⟨ts, p, hscan, hparse⟩
  · simp only [evaluate_of_scan_error hscan, Except.map]
  · simp only [evaluate_of_parse_error hscan hparse, Except.map]
  · obtain ⟨answer, trace, h⟩ := exists_answer_of_parse hscan hparse
    rw [(h false).2, (h true).2]
    cases answer with
    | error e => rfl
    | ok value => rfl

theorem isSome_trace_of_evaluate {debug : Bool} {e : Evaluation}
    (h : evaluate source debug = .ok e) : e.trace.isSome = debug := by
  rcases Session.stages_cases source with
    ⟨e, hscan⟩ | ⟨ts, e, hscan, hparse⟩ | ⟨ts, p, hscan, hparse⟩
  · rw [evaluate_of_scan_error hscan] at h
    cases h
  · rw [evaluate_of_parse_error hscan hparse] at h
    cases h
  · obtain ⟨answer, trace, hanswer⟩ := exists_answer_of_parse hscan hparse
    rw [(hanswer debug).2] at h
    cases answer with
    | error e => cases h
    | ok value =>
      cases h
      cases debug <;> rfl

theorem transcript_eq_account (source : String) (debug : Bool) :
    transcript source debug = account source (if debug then .debug else .trace) := by
  rcases Session.stages_cases source with
    ⟨e, hscan⟩ | ⟨ts, e, hscan, hparse⟩ | ⟨ts, p, hscan, hparse⟩
  · simp [transcript, evaluateLogged, account, evaluate_of_scan_error hscan, hscan, told, tracePart?,
      Except.toOption, Error.trace?]
  · simp only [transcript, evaluateLogged, account, evaluate_of_parse_error hscan hparse, hscan,
      Except.toOption, Option.bind_some, hparse]
    rfl
  · obtain ⟨answer, trace, h⟩ := exists_answer_of_parse hscan hparse
    have hlog := p.log_execute (.new debug)
    rw [(h debug).1] at hlog
    simp only [transcript, evaluateLogged, account, (h true).2, hscan, hparse, Logged.log_bind,
      Logged.log_send, (h debug).1, hlog, Except.toOption, Option.bind_some]
    cases answer with
    | error e => simp [told, tracePart?, Error.trace?, Recorder.messages, Recorder.level]
    | ok value => simp [told, tracePart?, Recorder.messages, Recorder.level]

end Evaluations

/-- Debugging changes what is shown of an evaluation and nothing else. The answers agree, but for the
trace that comes with a value; the messages are the same line by line, and only those about steps
are louder. They tell the results of the stages in order, as far as these succeed, and of the steps
exactly the lines in which the trace is shown, also the trace that an error carries. -/
theorem transcript_tells_evaluation (source : String) :
    evaluate source false = (evaluate source true).map Evaluation.silent ∧
      (∀ debug e, evaluate source debug = .ok e → e.trace.isSome = debug) ∧
      (∀ debug, transcript source debug = account source (if debug then .debug else .trace)) ∧
      (transcript source true).map Message.text = (transcript source false).map Message.text ∧
      ∀ debug trace, tracePart? (evaluate source debug) = some trace →
        linesOf trace.render = trace.frames := by
  refine ⟨evaluate_silent source, fun debug e h => isSome_trace_of_evaluate h,
    transcript_eq_account source, ?_, fun debug trace h => linesOf_render h⟩
  rw [transcript_eq_account, transcript_eq_account]
  cases htrace : tracePart? (evaluate source true) with
  | none => simp [account, htrace]
  | some trace => simp [account, htrace, Function.comp_def]

/-- A division that fails behind one step. -/
theorem evaluate_quotient (debug : Bool) : evaluate "2*3/0" debug =
    .error (.runtime (.divisionByZero ⟨4, 1⟩) ⟨#["2 * 3 = 6"]⟩) := by
  have hvalue := Session.value_evaluate "2*3/0" debug
  rw [Session.execute_quotient] at hvalue
  cases hevaluate : evaluate "2*3/0" debug with
  | error e =>
    rw [hevaluate] at hvalue
    exact congrArg Except.error (Except.error.inj hvalue)
  | ok e =>
    rw [hevaluate] at hvalue
    cases hvalue

/-- The step is told all the same. -/
theorem transcript_quotient :
    tracePart? (evaluate "2*3/0" false) = some ⟨#["2 * 3 = 6"]⟩ ∧
      linesOf (Trace.render ⟨#["2 * 3 = 6"]⟩) = ["[0] 2 * 3 = 6"] ∧
      ∀ debug, transcript "2*3/0" debug =
        [⟨.debug, "scanned 5 tokens"⟩, ⟨.debug, "postfix: 2 3 * 0 /"⟩,
          ⟨if debug then .debug else .trace, "[0] 2 * 3 = 6"⟩] := by
  have hscan : Token.scan "2*3/0" = .ok Session.quotientTokens := by cbv
  have hparse : Postfix.parse Session.quotientTokens = .ok Session.quotientSequence := rfl
  have htrace : tracePart? (evaluate "2*3/0" false) = some ⟨#["2 * 3 = 6"]⟩ := by
    rw [evaluate_quotient]
    rfl
  obtain ⟨-, -, htranscript, -, hlines⟩ := transcript_tells_evaluation "2*3/0"
  refine ⟨htrace, (hlines false _ htrace).trans rfl, fun debug => ?_⟩
  rw [htranscript, account, hscan, evaluate_quotient]
  simp only [Except.toOption, Option.bind_some, hparse]
  rfl

end Calculator
