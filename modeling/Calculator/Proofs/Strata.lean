import Calculator.Phrase
import Calculator.Proofs.Recognition

/-!
The strata of phrases and the flat grammar of kinds describe the same rows of tokens. One direction
forgets the strata. The other builds a phrase along a chain of operands: a new operator with its
right operand is put where its binding strength belongs, on the right edge of what is there.
-/
namespace Calculator.Phrase

open Grammar

/-- The rows of kinds of a stratum that ends in a single operand are operands. -/
def Stratum.category : Stratum → Category
  | .sum | .product | .power => .expression
  | .unary | .atom => .operand

theorem derives_join {a b : List Kind} {k : Kind} (ha : Derives .expression a)
    (hk : k.arity = some .binary) (hb : Derives .expression b) :
    Derives .expression (a ++ k :: b) := by
  generalize hc : Category.expression = c at hb
  induction hb with
  | operand hu => exact .operation ha hk hu
  | operation _ hk' hu ihe =>
    have hleft := ihe hc
    simpa only [List.append_assoc, List.cons_append] using Derives.operation hleft hk' hu
  | negation => cases hc
  | number => cases hc
  | decimal => cases hc
  | group => cases hc

theorem binary_of_sum {k : Kind} (hk : k = .add ∨ k = .sub) : k.arity = some .binary := by
  rcases hk with rfl | rfl <;> rfl

theorem binary_of_product {k : Kind} (hk : k = .mul ∨ k = .div ∨ k = .mod) :
    k.arity = some .binary := by
  rcases hk with rfl | rfl | rfl <;> rfl

theorem binary_cases {k : Kind} (hk : k.arity = some .binary) :
    (k = .add ∨ k = .sub) ∨ (k = .mul ∨ k = .div ∨ k = .mod) ∨ k = .exp := by
  revert hk
  cases k <;> decide

/-- Without its strata a phrase is a row of the flat grammar. -/
theorem At.derives {s : Stratum} {e : Phrase} (h : At s e) :
    Derives s.category (e.yield.map Token.kind) := by
  induction h with
  | sumOfProduct _ ih => exact ih
  | productOfPower _ ih => exact ih
  | powerOfUnary _ ih => exact .operand ih
  | unaryOfAtom _ ih => exact ih
  | sum hop _ _ ihl ihr =>
    simp only [yield, List.map_append, List.map_cons]
    exact derives_join ihl (binary_of_sum hop) ihr
  | product hop _ _ ihl ihr =>
    simp only [yield, List.map_append, List.map_cons]
    exact derives_join ihl (binary_of_product hop) ihr
  | power hop _ _ ihl ihr =>
    simp only [yield, List.map_append, List.map_cons]
    exact derives_join (.operand ihl) (by rw [hop]; rfl) ihr
  | negation hop _ ih =>
    simp only [yield, List.map_cons, hop]
    exact .negation ih
  | literal ht =>
    simp only [yield, List.map_cons, List.map_nil]
    rcases ht with ht | ht <;> rw [ht]
    · exact .number
    · exact .decimal
  | group hopening _ hclosing ih =>
    simp only [yield, List.map_append, List.map_cons, List.map_nil, hopening, hclosing]
    exact .group ih

section Join

variable {e u : Phrase} {op : Token}

/-- A power grows at the far end of its chain. -/
theorem At.join_power (h : At .power e) (hop : op.kind = .exp) (hu : At .unary u) :
    ∃ e', At .power e' ∧ e'.yield = e.yield ++ op :: u.yield := by
  generalize hs : Stratum.power = s at h
  induction h with
  | powerOfUnary hl _ =>
    exact ⟨.operation op _ u, .power hop hl (.powerOfUnary hu), rfl⟩
  | @power op' l r hop' hl _ _ ihr =>
    obtain ⟨r', hr', hyield⟩ := ihr rfl
    exact ⟨.operation op' l r', .power hop' hl hr', by simp [yield, hyield]⟩
  | _ => cases hs

theorem At.join_product (h : At .product e)
    (hop : op.kind = .exp ∨ op.kind = .mul ∨ op.kind = .div ∨ op.kind = .mod)
    (hu : At .unary u) : ∃ e', At .product e' ∧ e'.yield = e.yield ++ op :: u.yield := by
  rcases hop with hop | hop
  · cases h with
    | productOfPower hp =>
      obtain ⟨e', he', hyield⟩ := hp.join_power hop hu
      exact ⟨e', .productOfPower he', hyield⟩
    | @product op' l r hop' hl hr =>
      obtain ⟨r', hr', hyield⟩ := hr.join_power hop hu
      exact ⟨.operation op' l r', .product hop' hl hr', by simp [yield, hyield]⟩
  · exact ⟨.operation op e u, .product hop h (.powerOfUnary hu), rfl⟩

theorem At.join_sum (h : At .sum e) (hop : op.kind.arity = some .binary) (hu : At .unary u) :
    ∃ e', At .sum e' ∧ e'.yield = e.yield ++ op :: u.yield := by
  have hsort : (op.kind = .add ∨ op.kind = .sub) ∨
      op.kind = .exp ∨ op.kind = .mul ∨ op.kind = .div ∨ op.kind = .mod := by
    cases hk : op.kind <;> simp_all [Kind.arity]
  rcases hsort with hadd | hmul
  · exact ⟨.operation op e u, .sum hadd h (.productOfPower (.powerOfUnary hu)), rfl⟩
  · cases h with
    | sumOfProduct hp =>
      obtain ⟨e', he', hyield⟩ := hp.join_product hmul hu
      exact ⟨e', .sumOfProduct he', hyield⟩
    | @sum op' l r hop' hl hr =>
      obtain ⟨r', hr', hyield⟩ := hr.join_product hmul hu
      exact ⟨.operation op' l r', .sum hop' hl hr', by simp [yield, hyield]⟩

end Join

def widest : Category → Stratum
  | .expression => .sum
  | .operand => .unary

/-- Tokens whose kinds form a row of the flat grammar are the yield of a phrase. -/
theorem exists_of_derives {c : Category} {ks : List Kind} (h : Derives c ks) {ts : List Token}
    (hts : ts.map Token.kind = ks) : ∃ e, At (widest c) e ∧ e.yield = ts := by
  induction h generalizing ts with
  | operand _ ih =>
    obtain ⟨e, he, hyield⟩ := ih hts
    exact ⟨e, .sumOfProduct (.productOfPower (.powerOfUnary he)), hyield⟩
  | operation _ hk _ ihe ihu =>
    obtain ⟨left, tail, rfl, hleft, htail⟩ := List.map_eq_append_iff.mp hts
    obtain ⟨op, right, rfl, rfl, hright⟩ := List.map_eq_cons_iff.mp htail
    obtain ⟨e, he, rfl⟩ := ihe hleft
    obtain ⟨u, hu, rfl⟩ := ihu hright
    exact he.join_sum hk hu
  | negation _ ih =>
    obtain ⟨op, operand, rfl, hop, hoperand⟩ := List.map_eq_cons_iff.mp hts
    obtain ⟨e, he, rfl⟩ := ih hoperand
    exact ⟨.negation op e, .negation hop he, rfl⟩
  | number =>
    obtain ⟨t, rfl, ht⟩ := List.map_eq_singleton_iff.mp hts
    exact ⟨.literal t, .unaryOfAtom (.literal (Or.inl ht)), rfl⟩
  | decimal =>
    obtain ⟨t, rfl, ht⟩ := List.map_eq_singleton_iff.mp hts
    exact ⟨.literal t, .unaryOfAtom (.literal (Or.inr ht)), rfl⟩
  | group _ ih =>
    obtain ⟨opening, tail, rfl, hopening, htail⟩ := List.map_eq_cons_iff.mp hts
    obtain ⟨inner, last, rfl, hinner, hlast⟩ := List.map_eq_append_iff.mp htail
    obtain ⟨closing, rfl, hclosing⟩ := List.map_eq_singleton_iff.mp hlast
    obtain ⟨e, he, rfl⟩ := ih hinner
    exact ⟨.group opening e closing, .unaryOfAtom (.group hopening he hclosing), rfl⟩

/-- The check accepts what can be read as a phrase. -/
theorem check_iff_exists_phrase (ts : List Token) :
    check ts = .ok () ↔ ∃ e, At .sum e ∧ e.yield = Token.significant ts := by
  rw [check_iff_derives]
  constructor
  · intro h
    exact exists_of_derives h rfl
  · intro h
    obtain ⟨e, he, hyield⟩ := h
    rw [← hyield]
    exact he.derives

end Calculator.Phrase
