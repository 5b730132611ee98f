import Calculator.Evaluation
import Calculator.Proofs.Agreement
import Calculator.Proofs.Exact
import Calculator.Proofs.Literals
import Calculator.Proofs.Rearrangement
import Calculator.Proofs.Scanning
import Calculator.Proofs.TreeExecution

/-!
The meaning of a source text, said by recursion on its tree: the left operand, the right operand,
then the operator, and an end at the first division by zero or remainder by a number whose whole
part is zero. The four stages of an evaluation together find this meaning.
-/
namespace Calculator

namespace Arithmetic

def result (k : Kind) (lhs rhs : Float) : Float :=
  match k with
  | .add => lhs + rhs
  | .sub => lhs - rhs
  | .mul => lhs * rhs
  | .div => lhs / rhs
  | .mod => (Number.remainder? lhs rhs).getD Number.notANumber
  | .exp => lhs.pow rhs
  | .number | .decimal | .whitespace | .openBrace | .closeBrace | .neg => Number.notANumber

/-- A binary operator refuses two divisors and nothing else. -/
theorem apply_of_binary {op : Token} (h : op.kind.arity = some .binary) (lhs rhs : Float) :
    apply op lhs rhs =
      if op.kind = .div ∧ Number.rational? rhs = some 0 then .error (.divisionByZero op.position)
      else if op.kind = .mod ∧ (Number.rational? rhs).map Number.towardZero = some 0 then
        .error (.moduloByZero op.position)
      else .ok (result op.kind lhs rhs) := by
  unfold apply
  cases hkind : op.kind <;> rw [hkind] at h <;> try cases h
  case div => simp [result, Number.beq_zero_iff]
  case mod =>
    simp only [← Number.remainder?_eq_none_iff lhs rhs]
    cases hrem : Number.remainder? lhs rhs with
    | none => simp
    | some r => simp [result, hrem]
  all_goals simp [result]

end Arithmetic

namespace Tree

open Arithmetic

def reckon : Tree → Except RuntimeError Float × List String
  | literal t => (.ok (Number.ofLiteral t.lexeme), [])
  | negation _ e =>
    match e.reckon with
    | (.error err, steps) => (.error err, steps)
    | (.ok value, steps) => (.ok (-value), steps ++ [negationStep value (-value)])
  | operation op l r =>
    match l.reckon with
    | (.error err, steps) => (.error err, steps)
    | (.ok lhs, front) =>
      match r.reckon with
      | (.error err, steps) => (.error err, front ++ steps)
      | (.ok rhs, back) =>
        if op.kind = .div ∧ Number.rational? rhs = some 0 then
          (.error (.divisionByZero op.position), front ++ back)
        else if op.kind = .mod ∧ (Number.rational? rhs).map Number.towardZero = some 0 then
          (.error (.moduloByZero op.position), front ++ back)
        else
          let value := result op.kind lhs rhs
          (.ok value, front ++ back ++ [operationStep op lhs rhs value])

def answer (e : Tree) (debug : Bool) : Except Error Evaluation :=
  match e.reckon with
  | (.error err, steps) => .error (.runtime err ⟨steps.toArray⟩)
  | (.ok value, steps) => .ok ⟨value, if debug then some ⟨steps.toArray⟩ else none⟩

theorem answer_ne_lexical (e : Tree) (debug : Bool) (err : LexicalError) :
    e.answer debug ≠ .error (.lexical err) := by
  unfold answer
  split <;> simp

theorem answer_ne_syntactic (e : Tree) (debug : Bool) (err : SyntaxError) :
    e.answer debug ≠ .error (.syntactic err) := by
  unfold answer
  split <;> simp

/-- A tree whose tokens are spelled as their kinds has only literals with a value. -/
theorem evaluate_eq_reckon {e : Tree} (hkind : e.WellKinded)
    (hspelled : ∀ t ∈ e.postorder, t.kind.Spells t.lexeme.toList) : e.evaluate = e.reckon := by
  induction e with
  | literal t =>
    have ht := hspelled t (by simp [postorder])
    simp [evaluate, reckon, operand, Number.read?_literal hkind ht]
  | negation op e ih =>
    have hsub : ∀ t ∈ e.postorder, t.kind.Spells t.lexeme.toList := by
      intro t ht
      exact hspelled t (by simp [postorder, ht])
    have hvalue := ih hkind.2 hsub
    rcases hreckon : e.reckon with ⟨err | value, steps⟩
    · simp [evaluate, reckon, hvalue, hreckon]
    · simp [evaluate, reckon, hvalue, hreckon]
  | operation op l r ihl ihr =>
    have hleft : ∀ t ∈ l.postorder, t.kind.Spells t.lexeme.toList := by
      intro t ht
      exact hspelled t (by simp [postorder, ht])
    have hright : ∀ t ∈ r.postorder, t.kind.Spells t.lexeme.toList := by
      intro t ht
      exact hspelled t (by simp [postorder, ht])
    rw [evaluate, reckon, ihl hkind.2.1 hleft, ihr hkind.2.2 hright]
    rcases l.reckon with ⟨err | lhs, front⟩
    · rfl
    rcases r.reckon with ⟨err | rhs, back⟩
    · rfl
    simp only [apply_of_binary hkind.1]
    split_ifs <;> rfl

end Tree

/-- What is listed of a phrase is written in it. -/
theorem Phrase.mem_yield_of_mem_postorder {e : Phrase} {t : Token} (h : t ∈ e.tree.postorder) :
    t ∈ e.yield := by
  induction e with
  | literal u => exact h
  | group opening e closing ih => simp [yield, ih h]
  | negation op e ih =>
    simp only [tree, Tree.postorder, List.mem_append, List.mem_singleton] at h
    rcases h with h | h
    · simp [yield, ih h]
    · simp [yield, h]
  | operation op l r ihl ihr =>
    simp only [tree, Tree.postorder, List.mem_append, List.mem_singleton] at h
    rcases h with (h | h) | h
    · simp [yield, ihl h]
    · simp [yield, ihr h]
    · simp [yield, h]

theorem Phrase.mem_of_mem_postorder {e : Phrase} {ts : List Token} {t : Token}
    (hyield : e.yield = Token.significant ts) (h : t ∈ e.tree.postorder) : t ∈ ts := by
  have hmem := mem_yield_of_mem_postorder h
  rw [hyield] at hmem
  exact List.mem_of_mem_filter hmem

theorem evaluate_of_check_error {source : String} {ts : List Token} {err : SyntaxError}
    (h : Token.scan source = .ok ts) (hcheck : Grammar.check ts = .error err) (debug : Bool) :
    evaluate source debug = .error (.syntactic err) := by
  refine evaluate_of_parse_error h ?_ debug
  rw [Postfix.parse, hcheck]

theorem Postfix.check_of_parse {ts : List Token} {p : Postfix} (h : parse ts = .ok p) :
    Grammar.check ts = .ok () := by
  rw [parse] at h
  cases hcheck : Grammar.check ts with
  | error err =>
    rw [hcheck] at h
    cases h
  | ok _ => rfl

/-- Where the tokens are those of a phrase, only the tree of the phrase decides the answer. -/
theorem evaluate_of_phrase {source : String} {ts : List Token} {e : Phrase}
    (h : Token.scan source = .ok ts) (he : Phrase.At .sum e)
    (hyield : e.yield = Token.significant ts) (debug : Bool) :
    evaluate source debug = e.tree.answer debug := by
  have hcheck := (Phrase.check_iff_exists_phrase ts).mpr ⟨e, he, hyield⟩
  have hspelled := (Token.scan_iff_scanned.mp h).spelled
  have hreckon : e.tree.evaluate = e.tree.reckon :=
    Tree.evaluate_eq_reckon he.wellKinded fun t ht =>
      hspelled t (Phrase.mem_of_mem_postorder hyield ht)
  have hexecute := Postfix.execute_postorder (he.arrange hyield) he.wellKinded (.new debug)
  simp only [evaluate, evaluateLogged, h, Postfix.parse, hcheck, hexecute, hreckon, Tree.answer]
  rcases e.tree.reckon with ⟨err | value, steps⟩
  · simp
  · simp

/-- A row of tokens with signs of minus of one's own choice is that of a phrase for at most one
choice, the one that the scan has made. -/
theorem Phrase.yield_eq_of_sameButSign {source : String} {ts us : List Token} {e : Phrase}
    (hscan : Token.scan source = .ok ts) (hsame : List.Forall₂ Token.SameButSign ts us)
    (he : Phrase.At .sum e) (hyield : e.yield = Token.significant us) :
    e.yield = Token.significant ts := by
  have hcheck := (Phrase.check_iff_exists_phrase us).mpr ⟨e, he, hyield⟩
  rw [hyield, Token.eq_of_check hscan hsame hcheck]

theorem scan_of_evaluate_lexical {source : String} {err : LexicalError} {debug : Bool}
    (h : evaluate source debug = .error (.lexical err)) : Token.scan source = .error err := by
  cases hscan : Token.scan source with
  | error err' =>
    rw [evaluate_of_scan_error hscan] at h
    cases h
    rfl
  | ok ts =>
    cases hcheck : Grammar.check ts with
    | error err' =>
      rw [evaluate_of_check_error hscan hcheck] at h
      cases h
    | ok _ =>
      obtain ⟨e, he, hyield⟩ := (Phrase.check_iff_exists_phrase ts).mp hcheck
      rw [evaluate_of_phrase hscan he hyield] at h
      exact absurd h (e.tree.answer_ne_lexical debug err)

/-- Of the three ways an evaluation can go, the first that the text allows is taken: a text that
cannot be scanned, tokens that no phrase is written with, and the answer of the tree. A phrase may
take any minus for a negation or for a subtraction, whatever the scan has taken it for. -/
theorem evaluate_reckons (source : String) (debug : Bool) :
    (∀ err, evaluate source debug = .error (.lexical err) ↔ Token.scan source = .error err) ∧
      ∀ ts, Token.scan source = .ok ts →
        ((∃ err, evaluate source debug = .error (.syntactic err)) ↔
            ¬∃ us e, List.Forall₂ Token.SameButSign ts us ∧ Phrase.At .sum e ∧
              e.yield = us.filter fun t => t.kind ≠ .whitespace) ∧
          ∀ us e, List.Forall₂ Token.SameButSign ts us → Phrase.At .sum e →
            (e.yield = us.filter fun t => t.kind ≠ .whitespace) →
              evaluate source debug = e.tree.answer debug := by
  simp only [← Token.significant_eq_filter]
  refine ⟨fun err => ⟨scan_of_evaluate_lexical, fun h => evaluate_of_scan_error h debug⟩, ?_⟩
  intro ts hscan
  have hanswer : ∀ us e, List.Forall₂ Token.SameButSign ts us → Phrase.At .sum e →
      e.yield = Token.significant us → evaluate source debug = e.tree.answer debug :=
    fun us e hsame he hyield =>
      evaluate_of_phrase hscan he (Phrase.yield_eq_of_sameButSign hscan hsame he hyield) debug
  refine ⟨⟨?_, ?_⟩, hanswer⟩
  · rintro ⟨err, herr⟩ ⟨us, e, hsame, he, hyield⟩
    rw [hanswer us e hsame he hyield] at herr
    exact e.tree.answer_ne_syntactic debug err herr
  · intro hnone
    cases hcheck : Grammar.check ts with
    | error err => exact ⟨err, evaluate_of_check_error hscan hcheck debug⟩
    | ok _ =>
      obtain ⟨e, he, hyield⟩ := (Phrase.check_iff_exists_phrase ts).mp hcheck
      have hsame := List.forall₂_same.mpr fun t (_ : t ∈ ts) => Token.SameButSign.refl t
      exact absurd ⟨ts, e, hsame, he, hyield⟩ hnone

/-- The tokens of `-1 - 6.5/(2+-2)`. -/
def zeroDivisorTokens : List Token :=
  [⟨.neg, "-", ⟨1, 1⟩⟩, ⟨.number, "1", ⟨2, 1⟩⟩, ⟨.whitespace, " ", ⟨3, 1⟩⟩,
    ⟨.sub, "-", ⟨4, 1⟩⟩, ⟨.whitespace, " ", ⟨5, 1⟩⟩, ⟨.decimal, "6.5", ⟨6, 1⟩⟩,
    ⟨.div, "/", ⟨9, 1⟩⟩, ⟨.openBrace, "(", ⟨10, 1⟩⟩, ⟨.number, "2", ⟨11, 1⟩⟩,
    ⟨.add, "+", ⟨12, 1⟩⟩, ⟨.neg, "-", ⟨13, 1⟩⟩, ⟨.number, "2", ⟨14, 1⟩⟩,
    ⟨.closeBrace, ")", ⟨15, 1⟩⟩]

def zeroDivisor : Phrase :=
  .operation ⟨.sub, "-", ⟨4, 1⟩⟩
    (.negation ⟨.neg, "-", ⟨1, 1⟩⟩ (.literal ⟨.number, "1", ⟨2, 1⟩⟩))
    (.operation ⟨.div, "/", ⟨9, 1⟩⟩ (.literal ⟨.decimal, "6.5", ⟨6, 1⟩⟩)
      (.group ⟨.openBrace, "(", ⟨10, 1⟩⟩
        (.operation ⟨.add, "+", ⟨12, 1⟩⟩ (.literal ⟨.number, "2", ⟨11, 1⟩⟩)
          (.negation ⟨.neg, "-", ⟨13, 1⟩⟩ (.literal ⟨.number, "2", ⟨14, 1⟩⟩)))
        ⟨.closeBrace, ")", ⟨15, 1⟩⟩))

theorem evaluate_zeroDivisor :
    Token.scan "-1 - 6.5/(2+-2)" = .ok zeroDivisorTokens ∧
      List.Forall₂ Token.SameButSign zeroDivisorTokens zeroDivisorTokens ∧
      Phrase.At .sum zeroDivisor ∧
      (zeroDivisor.yield = zeroDivisorTokens.filter fun t => t.kind ≠ .whitespace) ∧
        evaluate "-1 - 6.5/(2+-2)" true =
          .error (.runtime (.divisionByZero ⟨9, 1⟩)
            ⟨#["-(1) = -1", "-(2) = -2", "2 + -2 = 0"]⟩) := by
  have hscan : Token.scan "-1 - 6.5/(2+-2)" = .ok zeroDivisorTokens := by cbv
  have hsame : List.Forall₂ Token.SameButSign zeroDivisorTokens zeroDivisorTokens :=
    List.forall₂_same.mpr fun t _ => Token.SameButSign.refl t
  have hliteral : ∀ {t : Token}, t.kind = .number ∨ t.kind = .decimal →
      Phrase.At .unary (.literal t) :=
    fun ht => .unaryOfAtom (.literal ht)
  have hnegation : ∀ {op t : Token}, op.kind = .neg → t.kind = .number ∨ t.kind = .decimal →
      Phrase.At .product (.negation op (.literal t)) :=
    fun hop ht => .productOfPower (.powerOfUnary (.negation hop (hliteral ht)))
  have hphrase : Phrase.At .sum zeroDivisor := by
    refine .sum (.inr rfl) (.sumOfProduct (hnegation rfl (.inl rfl))) ?_
    refine .product (.inr (.inl rfl)) (.productOfPower (.powerOfUnary (hliteral (.inr rfl)))) ?_
    refine .powerOfUnary (.unaryOfAtom (.group rfl ?_ rfl))
    refine .sum (.inl rfl) (.sumOfProduct ?_) (hnegation rfl (.inl rfl))
    exact .productOfPower (.powerOfUnary (hliteral (.inl rfl)))
  exact ⟨hscan, hsame, hphrase, rfl,
    ((evaluate_reckons _ true).2 zeroDivisorTokens hscan).2 zeroDivisorTokens zeroDivisor hsame
      hphrase rfl⟩

end Calculator
