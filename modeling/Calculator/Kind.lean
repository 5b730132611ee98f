/-!
The kinds of token that an arithmetic expression is made of, and what each operator kind needs to
be placed in an expression: how many operands it takes, how tightly it binds and which way equal
operators group. The order of the constructors is the order in which sets of kinds are listed.
-/
namespace Calculator

inductive Kind where
  | number
  | decimal
  | whitespace
  | openBrace
  | closeBrace
  | add
  | sub
  | neg
  | mul
  | mod
  | div
  | exp
deriving DecidableEq, Repr

inductive Arity where
  | unary
  | binary
deriving DecidableEq, Repr

inductive Associativity where
  | left
  | right
deriving DecidableEq, Repr

namespace Kind

def all : List Kind :=
  [.number, .decimal, .whitespace, .openBrace, .closeBrace, .add, .sub, .neg, .mul, .mod, .div,
    .exp]

def index : Kind → Fin 12
  | .number => 0
  | .decimal => 1
  | .whitespace => 2
  | .openBrace => 3
  | .closeBrace => 4
  | .add => 5
  | .sub => 6
  | .neg => 7
  | .mul => 8
  | .mod => 9
  | .div => 10
  | .exp => 11

def name : Kind → String
  | .number => "T_NUMBER"
  | .decimal => "T_DECIMAL"
  | .whitespace => "T_WHITE_SPACE"
  | .openBrace => "T_OPEN_BRACE"
  | .closeBrace => "T_CLOSE_BRACE"
  | .add => "T_ADD"
  | .sub => "T_SUB"
  | .neg => "T_NEG"
  | .mul => "T_MUL"
  | .mod => "T_MOD"
  | .div => "T_DIV"
  | .exp => "T_EXP"

def arity : Kind → Option Arity
  | .neg => some .unary
  | .add | .sub | .mul | .mod | .div | .exp => some .binary
  | .number | .decimal | .whitespace | .openBrace | .closeBrace => none

def isOperand : Kind → Bool
  | .number | .decimal => true
  | _ => false

def isOperator (k : Kind) : Bool := k.arity.isSome

def precedence : Kind → Option Nat
  | .add | .sub => some 1
  | .mul | .div | .mod => some 2
  | .exp => some 3
  | .neg | .openBrace | .closeBrace => some 4
  | .number | .decimal | .whitespace => none

def associativity : Kind → Option Associativity
  | .exp | .neg => some .right
  | .add | .sub | .mul | .mod | .div => some .left
  | .number | .decimal | .whitespace | .openBrace | .closeBrace => none

def depthAfter (depth : Nat) : Kind → Nat
  | .openBrace => depth + 1
  | .closeBrace => depth - 1
  | _ => depth

theorem getElem_all_index (k : Kind) : all[k.index]? = some k := by
  cases k <;> rfl

theorem mem_all (k : Kind) : k ∈ all := by
  cases k <;> decide

theorem index_injective {j k : Kind} (h : j.index = k.index) : j = k := by
  have hj := getElem_all_index j
  rw [h, getElem_all_index k] at hj
  exact (Option.some.inj hj).symm

section Classes

variable {k : Kind}

theorem isOperator_of_isOperand (h : k.isOperand = true) : k.isOperator = false := by
  revert h
  cases k <;> decide

theorem isOperand_of_isOperator (h : k.isOperator = true) : k.isOperand = false := by
  revert h
  cases k <;> decide

theorem isOperator_of_binary (h : k.arity = some .binary) : k.isOperator = true := by
  rw [isOperator, h]
  rfl

theorem isOperand_of_binary (h : k.arity = some .binary) : k.isOperand = false :=
  isOperand_of_isOperator (isOperator_of_binary h)

/-- A negation is the only operator that is not binary. -/
theorem binary_of_isOperator (h : k.isOperator = true) (hneg : k ≠ .neg) :
    k.arity = some .binary := by
  revert h hneg
  cases k <;> decide

end Classes

end Kind

end Calculator
