import Calculator.KindSet
import Calculator.Position
import Calculator.Trace

/-!
What can go wrong with an expression, by the stage that notices it, and the wording of each report.
Every error knows the place it is about; an error of execution also keeps the steps that were
made before it.
-/
namespace Calculator

inductive LexicalError where
  | unknownToken (text : String) (position : Position)
  | unexpectedToken (text : String) (position : Position)
  | unexpectedCloseBrace (position : Position)
  | unexpectedEnd (expected : KindSet) (position : Position)
deriving DecidableEq, Repr

inductive SyntaxError where
  | unexpectedToken (kind : Kind) (expected : KindSet) (position : Position)
  | unexpectedEnd (expected : KindSet) (position : Position)
deriving DecidableEq, Repr

inductive RuntimeError where
  | divisionByZero (position : Position)
  | moduloByZero (position : Position)
  | malformedPostfix (position : Position)
deriving DecidableEq, Repr

inductive Error where
  | lexical (error : LexicalError)
  | syntactic (error : SyntaxError)
  | runtime (error : RuntimeError) (trace : Trace)
deriving DecidableEq, Repr

namespace LexicalError

def position : LexicalError → Position
  | unknownToken _ p | unexpectedToken _ p | unexpectedCloseBrace p | unexpectedEnd _ p => p

def expected : LexicalError → Option KindSet
  | unexpectedEnd ks _ => some ks
  | unknownToken .. | unexpectedToken .. | unexpectedCloseBrace .. => none

def reason : LexicalError → String
  | unknownToken text _ => s!"unknown token '{text}'."
  | unexpectedToken text _ => s!"unexpected token '{text}'."
  | unexpectedCloseBrace _ => "unexpected token ')'."
  | unexpectedEnd ks _ => s!"unexpected end, expecting {ks.render}."

end LexicalError

namespace SyntaxError

def position : SyntaxError → Position
  | unexpectedToken _ _ p | unexpectedEnd _ p => p

def expected : SyntaxError → KindSet
  | unexpectedToken _ ks _ | unexpectedEnd ks _ => ks

def reason : SyntaxError → String
  | unexpectedToken kind ks _ => s!"unexpected token {kind.name}, expecting {ks.render}."
  | unexpectedEnd ks _ => s!"unexpected end, expecting {ks.render}."

end SyntaxError

namespace RuntimeError

def position : RuntimeError → Position
  | divisionByZero p | moduloByZero p | malformedPostfix p => p

def reason : RuntimeError → String
  | divisionByZero _ => "division by zero."
  | moduloByZero _ => "modulo by zero."
  | malformedPostfix _ => "malformed postfix sequence."

end RuntimeError

namespace Error

def category : Error → String
  | lexical _ => "Lexical"
  | syntactic _ => "Syntax"
  | runtime .. => "Runtime"

def position : Error → Position
  | lexical e => e.position
  | syntactic e => e.position
  | runtime e _ => e.position

def expected : Error → Option KindSet
  | lexical e => e.expected
  | syntactic e => some e.expected
  | runtime .. => none

def reason : Error → String
  | lexical e => e.reason
  | syntactic e => e.reason
  | runtime e _ => e.reason

def trace? : Error → Option Trace
  | runtime _ t => some t
  | lexical _ | syntactic _ => none

def message (e : Error) : String :=
  s!"{e.category} error at offset {e.position.offset} on line {e.position.line}: {e.reason}"

end Error

end Calculator
