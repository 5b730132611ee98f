import Calculator.Kind
import Calculator.Position

/-!
Tokens: a kind, the text it was read from and the place where that text begins. Nothing here ties
the kind to the text; a scanned token has a text of its kind, a token built by hand need not.
-/
namespace Calculator

structure Token where
  kind : Kind
  lexeme : String
  position : Position
deriving DecidableEq, Repr

namespace Token

def stop (t : Token) : Position := t.position.advance t.lexeme.toList

def isWhitespace (t : Token) : Bool := decide (t.kind = .whitespace)

def significant (ts : List Token) : List Token := ts.filter fun t => !t.isWhitespace

theorem significant_eq_filter (ts : List Token) :
    significant ts = ts.filter fun t => t.kind ≠ .whitespace := by
  simp only [significant, isWhitespace, ne_eq, decide_not]

theorem significant_append (front rest : List Token) :
    significant (front ++ rest) = significant front ++ significant rest :=
  List.filter_append ..

end Token

end Calculator
