import Calculator.Error
import Calculator.Token

/-!
The grammar of token sequences as a rule about neighbours: each kind of token names the kinds that
may come next, and the number of open groups decides whether a group may be closed. Whitespace is
passed over.
-/
namespace Calculator

/-- The kinds that may follow a token of kind `k` when `depth` groups are open behind it. -/
def Kind.successors (k : Kind) (depth : Nat) : KindSet :=
  match k with
  | .number | .decimal | .closeBrace =>
    if 0 < depth then KindSet.binaryOperators.insert .closeBrace else .binaryOperators
  | .openBrace | .add | .sub | .neg | .mul | .mod | .div | .exp => .operandStart
  | .whitespace => .empty

namespace Grammar

/-- How far a check has come: the kinds that may come next, the number of open groups, and the
place where the text would end too early if no token followed. -/
structure State where
  expected : KindSet
  depth : Nat
  stop : Position
deriving DecidableEq, Repr

namespace State

def initial : State := ⟨.operandStart, 0, .start⟩

def after (s : State) (t : Token) : State :=
  let depth := t.kind.depthAfter s.depth
  ⟨t.kind.successors depth, depth, t.stop⟩

def step (s : State) (t : Token) : Except SyntaxError State :=
  if t.kind ∈ s.expected then .ok (s.after t)
  else .error (.unexpectedToken t.kind s.expected t.position)

def finish (s : State) : Except SyntaxError Unit :=
  if .number ∈ s.expected then .error (.unexpectedEnd s.expected s.stop)
  else if 0 < s.depth then .error (.unexpectedEnd (.ofList [.closeBrace]) s.stop)
  else .ok ()

end State

/-- The state behind a sequence of tokens none of which is whitespace. -/
def advance (s : State) : List Token → Except SyntaxError State
  | [] => .ok s
  | t :: rest =>
    match s.step t with
    | .error e => .error e
    | .ok next => advance next rest

def check (tokens : List Token) : Except SyntaxError Unit :=
  match advance .initial (Token.significant tokens) with
  | .error e => .error e
  | .ok s => s.finish

end Grammar

end Calculator
