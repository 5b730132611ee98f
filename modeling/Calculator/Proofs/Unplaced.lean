import Calculator.Proofs.Reckoning

/-!
What an expression means does not depend on where its tokens stand. With the places forgotten, two
phrases that are written alike are the same phrase, and the answers to their trees are the same
answer; only the place that an error is reported at tells them apart.
-/
namespace Calculator

/-- The token as if it stood at the start of a text. -/
def Token.unplaced (t : Token) : Token := { t with position := .start }

def LexicalError.unplaced : LexicalError → LexicalError
  | .unknownToken text _ => .unknownToken text .start
  | .unexpectedToken text _ => .unexpectedToken text .start
  | .unexpectedCloseBrace _ => .unexpectedCloseBrace .start
  | .unexpectedEnd expected _ => .unexpectedEnd expected .start

def SyntaxError.unplaced : SyntaxError → SyntaxError
  | .unexpectedToken kind expected _ => .unexpectedToken kind expected .start
  | .unexpectedEnd expected _ => .unexpectedEnd expected .start

def RuntimeError.unplaced : RuntimeError → RuntimeError
  | .divisionByZero _ => .divisionByZero .start
  | .moduloByZero _ => .moduloByZero .start
  | .malformedPostfix _ => .malformedPostfix .start

def Error.unplaced : Error → Error
  | .lexical e => .lexical e.unplaced
  | .syntactic e => .syntactic e.unplaced
  | .runtime e trace => .runtime e.unplaced trace

namespace Token

@[simp] theorem kind_unplaced (t : Token) : t.unplaced.kind = t.kind := rfl

@[simp] theorem lexeme_unplaced (t : Token) : t.unplaced.lexeme = t.lexeme := rfl

theorem map_kind_of_unplaced {ts us : List Token} (h : ts.map unplaced = us.map unplaced) :
    ts.map kind = us.map kind := by
  have hkinds := congrArg (List.map kind) h
  simpa [Function.comp_def] using hkinds

theorem map_kind_lexeme_of_unplaced {ts us : List Token} (h : ts.map unplaced = us.map unplaced) :
    (ts.map fun t => (t.kind, t.lexeme)) = us.map fun t => (t.kind, t.lexeme) := by
  have hpairs := congrArg (List.map fun t => (t.kind, t.lexeme)) h
  simpa [Function.comp_def] using hpairs

end Token

namespace Tree

def map (f : Token → Token) : Tree → Tree
  | literal t => .literal (f t)
  | negation op e => .negation (f op) (e.map f)
  | operation op l r => .operation (f op) (l.map f) (r.map f)

theorem postorder_map (f : Token → Token) (e : Tree) :
    (e.map f).postorder = e.postorder.map f := by
  induction e with
  | literal t => rfl
  | negation op e ih => simp [map, postorder, ih]
  | operation op l r ihl ihr => simp [map, postorder, ihl, ihr]

/-- The places of the tokens are told by errors only. -/
theorem reckon_unplaced (e : Tree) :
    (e.map Token.unplaced).reckon = (e.reckon.1.mapError RuntimeError.unplaced, e.reckon.2) := by
  induction e with
  | literal t => rfl
  | negation op e ih =>
    rw [map, reckon, reckon, ih]
    rcases e.reckon with ⟨err | value, steps⟩
    · rfl
    · rfl
  | operation op l r ihl ihr =>
    rw [map, reckon, reckon, ihl, ihr]
    rcases l.reckon with ⟨err | lhs, front⟩
    · rfl
    rcases r.reckon with ⟨err | rhs, back⟩
    · rfl
    simp only [Except.mapError]
    by_cases hdiv : op.kind = .div ∧ Number.rational? rhs = some 0
    · have hdiv' : op.unplaced.kind = .div ∧ Number.rational? rhs = some 0 := hdiv
      rw [if_pos hdiv, if_pos hdiv']
      rfl
    have hdiv' : ¬(op.unplaced.kind = .div ∧ Number.rational? rhs = some 0) := hdiv
    rw [if_neg hdiv, if_neg hdiv']
    by_cases hmod : op.kind = .mod ∧ (Number.rational? rhs).map Number.towardZero = some 0
    · have hmod' : op.unplaced.kind = .mod ∧
          (Number.rational? rhs).map Number.towardZero = some 0 := hmod
      rw [if_pos hmod, if_pos hmod']
      rfl
    · have hmod' : ¬(op.unplaced.kind = .mod ∧
          (Number.rational? rhs).map Number.towardZero = some 0) := hmod
      rw [if_neg hmod, if_neg hmod']
      rfl

theorem answer_unplaced (e : Tree) (debug : Bool) :
    (e.map Token.unplaced).answer debug = (e.answer debug).mapError Error.unplaced := by
  rw [answer, answer, reckon_unplaced]
  rcases e.reckon with ⟨err | value, steps⟩
  · rfl
  · rfl

end Tree

namespace Phrase

def map (f : Token → Token) : Phrase → Phrase
  | literal t => .literal (f t)
  | group opening e closing => .group (f opening) (e.map f) (f closing)
  | negation op e => .negation (f op) (e.map f)
  | operation op l r => .operation (f op) (l.map f) (r.map f)

theorem yield_map (f : Token → Token) (e : Phrase) : (e.map f).yield = e.yield.map f := by
  induction e with
  | literal t => rfl
  | group opening e closing ih => simp [map, yield, ih]
  | negation op e ih => simp [map, yield, ih]
  | operation op l r ihl ihr => simp [map, yield, ihl, ihr]

theorem tree_map (f : Token → Token) (e : Phrase) : (e.map f).tree = e.tree.map f := by
  induction e with
  | literal t => rfl
  | group opening e closing ih => exact ih
  | negation op e ih => rw [map, tree, tree, Tree.map, ih]
  | operation op l r ihl ihr => rw [map, tree, tree, Tree.map, ihl, ihr]

/-- The strata look at the kinds of the tokens only. -/
theorem At.map {f : Token → Token} (hf : ∀ t, (f t).kind = t.kind) {s : Stratum} {e : Phrase}
    (h : At s e) : At s (e.map f) := by
  induction h with
  | sumOfProduct _ ih => exact .sumOfProduct ih
  | sum hop _ _ ihl ihr => exact .sum (by rwa [hf]) ihl ihr
  | productOfPower _ ih => exact .productOfPower ih
  | product hop _ _ ihl ihr => exact .product (by rwa [hf]) ihl ihr
  | powerOfUnary _ ih => exact .powerOfUnary ih
  | power hop _ _ ihl ihr => exact .power (by rwa [hf]) ihl ihr
  | negation hop _ ih => exact .negation (by rwa [hf]) ih
  | unaryOfAtom _ ih => exact .unaryOfAtom ih
  | literal ht => exact .literal (by rwa [hf])
  | group hopening _ hclosing ih => exact .group (by rwa [hf]) ih (by rwa [hf])

/-- Phrases that are written alike, wherever their tokens stand, are alike. -/
theorem At.map_unplaced_eq {s s' : Stratum} {e e' : Phrase} (h : At s e) (h' : At s' e')
    (hyield : e.yield.map Token.unplaced = e'.yield.map Token.unplaced) :
    e.map Token.unplaced = e'.map Token.unplaced := by
  refine (h.map Token.kind_unplaced).yield_injective (h'.map Token.kind_unplaced) ?_
  rw [yield_map, yield_map, hyield]

theorem At.tree_unplaced_eq {s s' : Stratum} {e e' : Phrase} (h : At s e) (h' : At s' e')
    (hyield : e.yield.map Token.unplaced = e'.yield.map Token.unplaced) :
    e.tree.map Token.unplaced = e'.tree.map Token.unplaced := by
  rw [← tree_map, ← tree_map, h.map_unplaced_eq h' hyield]

end Phrase

end Calculator
