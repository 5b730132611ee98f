import Calculator.Grammar

/-!
Sequences in which every operator stands behind its operands, and the rearrangement of an ordinary
sequence into one. Operands keep their order; operators wait on a stack until one that binds no
tighter arrives, their group is closed, or the sequence ends. The rearrangement does not check the
grammar; `Postfix.parse` does both.
-/
namespace Calculator

structure Postfix where
  tokens : List Token
deriving DecidableEq, Repr

/-- A waiting operator leaves the stack before an incoming one that binds less tightly, or equally
and groups to the left. An open group keeps all that waits below it, and a negation releases
nothing. -/
def Kind.yieldsTo (top incoming : Kind) : Bool :=
  if top = .openBrace ∨ incoming = .neg then false
  else match top.precedence, incoming.precedence with
    | some waiting, some arriving =>
      waiting > arriving ∨ (waiting = arriving ∧ incoming.associativity = some .left)
    | _, _ => false

/-- A rearrangement under way: what has been put out, and the operators and open groups that wait,
the latest first. -/
structure Yard where
  output : Array Token
  waiting : List Token
deriving DecidableEq, Repr

namespace Yard

def empty : Yard := ⟨#[], []⟩

/-- Puts out waiting tokens while they yield to the incoming kind. Nothing is released before the
first operand is out. -/
def release (incoming : Kind) (output : Array Token) : List Token → Yard
  | [] => ⟨output, []⟩
  | top :: below =>
    if !output.isEmpty && top.kind.yieldsTo incoming then
      release incoming (output.push top) below
    else ⟨output, top :: below⟩

def close (output : Array Token) : List Token → Yard
  | [] => ⟨output, []⟩
  | top :: below =>
    if top.kind = .openBrace then ⟨output, below⟩ else close (output.push top) below

def feed (y : Yard) (t : Token) : Yard :=
  match t.kind with
  | .number | .decimal => { y with output := y.output.push t }
  | .openBrace => { y with waiting := t :: y.waiting }
  | .closeBrace => close y.output y.waiting
  | .add | .sub | .neg | .mul | .mod | .div | .exp =>
    let released := release t.kind y.output y.waiting
    { released with waiting := t :: released.waiting }
  | .whitespace => y

def drain (y : Yard) : List Token := y.output.toList ++ y.waiting

end Yard

namespace Postfix

/-- Rearranges any sequence; open groups that are never closed come out behind the operands. -/
def arrange (tokens : List Token) : Postfix :=
  ⟨((Token.significant tokens).foldl Yard.feed .empty).drain⟩

def parse (tokens : List Token) : Except SyntaxError Postfix :=
  match Grammar.check tokens with
  | .error e => .error e
  | .ok () => .ok (arrange tokens)

def size (p : Postfix) : Nat := p.tokens.length

def isEmpty (p : Postfix) : Bool := p.tokens.isEmpty

def render (p : Postfix) : String := " ".intercalate (p.tokens.map Token.lexeme)

/-- The place of the last token, or the start of the text if there is none. -/
def lastPosition (p : Postfix) : Position := (p.tokens.getLast?.map Token.position).getD .start

end Postfix

end Calculator
