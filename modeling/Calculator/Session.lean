import Calculator.Evaluation

/-!
A session works on one input at a time and keeps what each stage has found, so that a later request
need not repeat it. A stage that has not run yet is run when its result is needed, and repeating a
stage discards all that was found from its earlier result.
-/
namespace Calculator

structure Session where
  input : String
  tokens : Option (List Token)
  sequence : Option Postfix
  trace : Trace
  result : Option Float

namespace Session

def new (input : String) : Session := ⟨input, none, none, .empty, none⟩

instance : Inhabited Session := ⟨new ""⟩

def setInput (_ : Session) (input : String) : Session := new input

def scan (s : Session) : Except Error (List Token) × Session :=
  match Token.scan s.input with
  | .error e => (.error (.lexical e), new s.input)
  | .ok tokens => (.ok tokens, { new s.input with tokens := some tokens })

/-- Checks and rearranges tokens; all that was found behind the tokens is forgotten first. -/
def rearrange (s : Session) (tokens : List Token) : Except Error Postfix × Session :=
  let cleared := { s with sequence := none, trace := .empty, result := none }
  match Postfix.parse tokens with
  | .error e => (.error (.syntactic e), cleared)
  | .ok p => (.ok p, { cleared with sequence := some p })

def parse (s : Session) : Except Error Postfix × Session :=
  match s.tokens with
  | some tokens => s.rearrange tokens
  | none =>
    match s.scan with
    | (.error e, scanned) => (.error e, scanned)
    | (.ok tokens, scanned) => scanned.rearrange tokens

def executeSequence (s : Session) (p : Postfix) : Except Error Float × Session :=
  let o := (p.execute ⟨s.trace, false⟩).value
  let executed := { s with sequence := some p, trace := o.recorder.trace, result := none }
  match o.answer with
  | .error e => (.error (.runtime e o.recorder.trace), executed)
  | .ok value => (.ok value, { executed with result := some value })

/-- Executes the sequence at hand, or the one of the input if there is none yet. -/
def execute (s : Session) : Except Error Float × Session :=
  match s.sequence with
  | some p => s.executeSequence p
  | none =>
    match s.parse with
    | (.error e, parsed) => (.error e, parsed)
    | (.ok p, parsed) => parsed.executeSequence p

/-- Without a sequence, one is asked for first. -/
theorem execute_of_none {s : Session} (h : s.sequence = none) :
    s.execute = match s.parse with
      | (.error e, parsed) => (.error e, parsed)
      | (.ok p, parsed) => parsed.executeSequence p := by
  simp only [execute, h]

def run (s : Session) : Except Error Float × Session :=
  match s.scan with
  | (.error e, scanned) => (.error e, scanned)
  | (.ok _, scanned) =>
    match scanned.parse with
    | (.error e, parsed) => (.error e, parsed)
    | (.ok _, parsed) => parsed.execute

def lastFrame? (s : Session) : Option String := s.trace.lastFrame?

end Session

end Calculator
