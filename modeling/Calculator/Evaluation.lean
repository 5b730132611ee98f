import Calculator.Postfix.Execution
import Calculator.Token.Scan

/-!
Evaluation of a source text: it is scanned, checked, rearranged and executed, and the first stage
that fails gives the error. Debugging adds the trace to the answer and raises the level at which
steps are logged; it changes nothing else.
-/
namespace Calculator

structure Evaluation where
  value : Float
  trace : Option Trace
deriving BEq

def evaluateLogged (source : String) (debug : Bool) : Logged (Except Error Evaluation) :=
  match Token.scan source with
  | .error e => pure (.error (.lexical e))
  | .ok tokens => do
    Logged.send .debug s!"scanned {tokens.length} tokens"
    match Postfix.parse tokens with
    | .error e => return .error (.syntactic e)
    | .ok p =>
      Logged.send .debug s!"postfix: {p.render}"
      let o ← p.execute (.new debug)
      match o.answer with
      | .error e => return .error (.runtime e o.recorder.trace)
      | .ok value => return .ok ⟨value, if debug then some o.recorder.trace else none⟩

def evaluate (source : String) (debug : Bool) : Except Error Evaluation :=
  (evaluateLogged source debug).value

theorem evaluate_of_scan_error {source : String} {e : LexicalError}
    (h : Token.scan source = .error e) (debug : Bool) :
    evaluate source debug = .error (.lexical e) := by
  simp [evaluate, evaluateLogged, h]

theorem evaluate_of_parse_error {source : String} {ts : List Token} {e : SyntaxError}
    (hscan : Token.scan source = .ok ts) (hparse : Postfix.parse ts = .error e) (debug : Bool) :
    evaluate source debug = .error (.syntactic e) := by
  simp [evaluate, evaluateLogged, hscan, hparse]

def transcript (source : String) (debug : Bool) : List Message := (evaluateLogged source debug).log

namespace Evaluation

/-- Answers agree when both are values or both are errors and these are equal, numbers by the
comparison of doubles. -/
def agree : Except Error Evaluation → Except Error Evaluation → Bool
  | .ok a, .ok b => a == b
  | .error a, .error b => a == b
  | _, _ => false

def agreeOnTrace? : Except Error Evaluation → Except Error Evaluation → Option Bool
  | .ok a, .ok b => some (a.trace == b.trace)
  | .error a, .error b => some (a.trace? == b.trace?)
  | _, _ => none

end Evaluation

end Calculator
