import Calculator.CommandLine
import Calculator.Proofs.Transcripts

/-!
The report on a text depends on the text alone, and debugging only puts the steps in front of it. An
expression is the same whether it is given as an argument or as the bytes of a file, and what stands
in front of its last carriage returns and line feeds decides the value, the errors and the steps.
-/
namespace Calculator.CommandLine

def shownSteps (answer : Except Error Evaluation) : String :=
  ((tracePart? answer).map Trace.render).getD ""

def reportQuietly : Except Error Evaluation → Report
  | .ok e => ⟨0, Number.render e.value ++ "\n", ""⟩
  | .error e => ⟨1, "", e.message ++ "\n"⟩

/-- The bytes of a text are read as this text. -/
theorem fromUTF8?_toUTF8 (text : String) : String.fromUTF8? text.toUTF8 = some text :=
  dif_pos text.isValidUTF8

theorem report_file (name text : String) (debug : Bool) :
    report (.file name (some text.toUTF8)) debug = report (.argument text) debug := by
  have hread : (Source.file name (some text.toUTF8)).read = .ok text := by
    rw [Source.read, Option.bind_some, fromUTF8?_toUTF8]
  rw [report, report, hread]
  rfl

section Ends

def isLineEnd (c : Char) : Bool := c = '\r' ∨ c = '\n'

theorem toList_trimLineEnds (text : String) :
    (trimLineEnds text).toList = text.toList.rdropWhile isLineEnd :=
  String.toList_ofList

/-- A text is the expression and a run of carriage returns and line feeds behind it. -/
theorem exists_ends (text : String) :
    ∃ ends : String, text = trimLineEnds text ++ ends ∧
      (∀ c ∈ ends.toList, c = '\r' ∨ c = '\n') ∧
      ∀ c, (trimLineEnds text).toList.getLast? = some c → ¬(c = '\r' ∨ c = '\n') := by
  refine ⟨String.ofList (text.toList.rtakeWhile isLineEnd), ?_, ?_, ?_⟩
  · refine String.toList_inj.mp ?_
    rw [String.toList_append, toList_trimLineEnds, String.toList_ofList]
    exact List.rdropWhile_append_rtakeWhile.symm
  · intro c hc
    rw [String.toList_ofList] at hc
    have hend : isLineEnd c = true := List.mem_rtakeWhile_imp hc
    exact of_decide_eq_true hend
  · intro c hc hend
    rw [toList_trimLineEnds] at hc
    have hne : text.toList.rdropWhile isLineEnd ≠ [] := by
      intro hnil
      rw [hnil] at hc
      cases hc
    rw [List.getLast?_eq_some_getLast hne, Option.some.injEq] at hc
    have hstop := List.rdropWhile_last_not isLineEnd text.toList hne
    rw [hc] at hstop
    exact hstop (decide_eq_true hend)

end Ends

section Answers

theorem reportAnswer_silent (answer : Except Error Evaluation) :
    reportAnswer false (answer.map Evaluation.silent) = reportQuietly answer := by
  cases answer with
  | error e => rfl
  | ok e => simp [reportAnswer, reportQuietly, Evaluation.silent, Except.map]

theorem reportAnswer_loud (answer : Except Error Evaluation) :
    reportAnswer true answer =
      { reportQuietly answer with
        stdout := shownSteps answer ++ (reportQuietly answer).stdout } := by
  cases answer with
  | error e => simp [reportAnswer, reportQuietly, shownSteps, tracePart?]
  | ok e => simp [reportAnswer, reportQuietly, shownSteps, tracePart?, String.append_assoc]

/-- With debugging or without, the report on a text is that on the answer to its expression. -/
theorem report_argument (text : String) :
    report (.argument text) false = reportQuietly (evaluate (trimLineEnds text) true) ∧
      report (.argument text) true =
        { report (.argument text) false with
          stdout := shownSteps (evaluate (trimLineEnds text) true) ++
            (report (.argument text) false).stdout } := by
  have hquiet : report (.argument text) false =
      reportQuietly (evaluate (trimLineEnds text) true) := by
    rw [report, Source.read]
    simp only [evaluate_silent, reportAnswer_silent]
  refine ⟨hquiet, ?_⟩
  rw [hquiet, report, Source.read]
  exact reportAnswer_loud _

end Answers

/-- A text can be given as an argument or as a file, with the same report. This is decided by the
expression in front of the carriage returns and line feeds at the end of the text. Without debugging
it is the value or the message of the error, and the code that goes with it; with debugging the same
behind the steps, those of the whole calculation or those before its error. -/
theorem report_contents (name text : String) :
    (∀ debug, report (.file name (some text.toUTF8)) debug = report (.argument text) debug) ∧
      ∃ ends shown, text = trimLineEnds text ++ ends ∧
        (∀ c ∈ ends.toList, c = '\r' ∨ c = '\n') ∧
        (∀ c, (trimLineEnds text).toList.getLast? = some c → ¬(c = '\r' ∨ c = '\n')) ∧
        (report (.argument text) false =
          match evaluate (trimLineEnds text) false with
          | .ok e => ⟨0, Number.render e.value ++ "\n", ""⟩
          | .error e => ⟨1, "", e.message ++ "\n"⟩) ∧
        (match evaluate (trimLineEnds text) true with
          | .ok e => e.trace.map Trace.render = some shown
          | .error (.runtime _ trace) => trace.render = shown
          | .error _ => shown = "") ∧
        report (.argument text) true =
          { report (.argument text) false with
            stdout := shown ++ (report (.argument text) false).stdout } := by
  obtain ⟨ends, hsplit, hends, hlast⟩ := exists_ends text
  obtain ⟨hquiet, hloud⟩ := report_argument text
  refine ⟨report_file name text, ends, shownSteps (evaluate (trimLineEnds text) true), hsplit,
    hends, hlast, ?_, ?_, hloud⟩
  · rw [hquiet, evaluate_silent]
    cases evaluate (trimLineEnds text) true with
    | error e => rfl
    | ok e => rfl
  · cases h : evaluate (trimLineEnds text) true with
    | error e => cases e <;> rfl
    | ok e =>
      obtain ⟨trace, htrace⟩ := Option.isSome_iff_exists.mp (isSome_trace_of_evaluate h)
      simp [shownSteps, tracePart?, htrace]

/-- The divisor is zero, and the file ends with its line. -/
theorem report_quotientFile :
    report (.file "quotient" (some "2*3/0\r\n".toUTF8)) true =
        ⟨1, "[0] 2 * 3 = 6\n", "Runtime error at offset 4 on line 1: division by zero.\n"⟩ ∧
      report (.argument "2*3/0\r\n") false =
        ⟨1, "", "Runtime error at offset 4 on line 1: division by zero.\n"⟩ := by
  obtain ⟨hroute, -, shown, -, -, -, hquiet, hshown, hloud⟩ :=
    report_contents "quotient" "2*3/0\r\n"
  have hexpression : trimLineEnds "2*3/0\r\n" = "2*3/0" := rfl
  rw [hexpression, evaluate_quotient] at hquiet hshown
  refine ⟨?_, hquiet⟩
  rw [hroute, hloud, hquiet, ← hshown]
  rfl

end Calculator.CommandLine
