import Calculator.Proofs.Heights
import Calculator.Proofs.Printing
import Calculator.Proofs.ReadBack
import Calculator.Proofs.Respacing

/-!
The steps of a derivation are true equations of the language. A step shows the values that were on
the stack, and a value that is finite is shown as a literal, with a minus in front if it has one. So
the left side of a step is a text that is read as this one operator between two such values, and
evaluating it gives the value that the right side shows.
-/
namespace Calculator

open Arithmetic

inductive Reduction where
  | negation (value : Float)
  | operation (op : Token) (lhs rhs : Float)

namespace Reduction

def result : Reduction → Float
  | negation value => -value
  | operation op lhs rhs => Arithmetic.result op.kind lhs rhs

def expression : Reduction → String
  | negation value => s!"-({Number.render value})"
  | operation op lhs rhs => s!"{Number.render lhs} {op.lexeme} {Number.render rhs}"

def step (r : Reduction) : String := r.expression ++ " = " ++ Number.render r.result

def signSteps (signs : List Float) : List String := signs.map fun value => (negation value).step

/-- The answer to a text that is read as this one reduction: the only steps before it are those of
the signs in front of its operands. -/
def answer (r : Reduction) (signs : List Float) (debug : Bool) : Evaluation :=
  ⟨r.result, if debug then some ⟨(signSteps signs ++ [r.step]).toArray⟩ else none⟩

def Finite : Reduction → Prop
  | negation value => value.isFinite = true
  | operation _ lhs rhs => lhs.isFinite = true ∧ rhs.isFinite = true

def MadeOf (ts : List Token) : Reduction → Prop
  | negation _ => True
  | operation op lhs rhs =>
    op ∈ ts ∧ op.kind.arity = some .binary ∧ apply op lhs rhs = .ok (Arithmetic.result op.kind lhs rhs)

theorem negationStep_eq (value : Float) :
    negationStep value (-value) = (negation value).step := by
  refine String.toList_inj.mp ?_
  simp [negationStep, step, expression, result]
  rfl

theorem operationStep_eq (op : Token) (lhs rhs : Float) :
    operationStep op lhs rhs (Arithmetic.result op.kind lhs rhs) =
      (operation op lhs rhs).step := by
  refine String.toList_inj.mp ?_
  simp [operationStep, step, expression, result]
  rfl

end Reduction

namespace Postfix

def reduction? (stack : List Float) (t : Token) : Option Reduction :=
  match t.kind.arity, stack with
  | some .unary, value :: _ => some (.negation value)
  | some .binary, rhs :: lhs :: _ => some (.operation t lhs rhs)
  | _, _ => none

/-- The reductions of a run, in order, up to the token at which it fails. -/
def reductions (stack : List Float) : List Token → List Reduction
  | [] => []
  | t :: rest =>
    match effect stack t with
    | .error _ => []
    | .ok next => (reduction? stack t).toList ++ reductions next rest

section Runs

variable {stack next : List Float} {t : Token} {ts : List Token}

theorem apply_eq_result {op : Token} (h : op.kind.arity = some .binary) {lhs rhs value : Float}
    (happly : apply op lhs rhs = .ok value) : value = result op.kind lhs rhs := by
  rw [apply_of_binary h] at happly
  split_ifs at happly
  exact (Except.ok.inj happly).symm

theorem reduction?_of_isOperand (h : t.kind.isOperand = true) : reduction? stack t = none := by
  have harity : t.kind.arity = none := by
    revert h
    cases t.kind <;> decide
  simp [reduction?, harity]

/-- A token that is executed adds the step of its reduction to the trace. -/
theorem trace_step (r : Recorder) (h : effect stack t = .ok next) :
    (step stack t r).value.recorder.trace.steps.toList =
      r.trace.steps.toList ++ (reduction? stack t).toList.map Reduction.step := by
  rcases (supplied_of_effect h).cases with
    hoperand | ⟨hneg, value, below, rfl⟩ | ⟨hbinary, rhs, lhs, below, rfl⟩
  · rw [step_literal hoperand, reduction?_of_isOperand hoperand]
    simp
  · have hreduction : reduction? (value :: below) t = some (.negation value) := by
      simp [reduction?, hneg, Kind.arity]
    rw [step_negation hneg, hreduction]
    simp [Recorder.record, Reduction.negationStep_eq]
  · have hreduction : reduction? (rhs :: lhs :: below) t = some (.operation t lhs rhs) := by
      simp [reduction?, hbinary]
    rw [effect_operation hbinary] at h
    rw [step_operation hbinary, hreduction]
    cases happly : apply t lhs rhs with
    | error e =>
      rw [happly] at h
      cases h
    | ok value =>
      obtain rfl := apply_eq_result hbinary happly
      simp [Recorder.record, Reduction.operationStep_eq]

/-- A token that fails leaves the trace as it is. -/
theorem trace_step_error (r : Recorder) {e : RuntimeError} (h : effect stack t = .error e) :
    (step stack t r).value.recorder.trace = r.trace := by
  unfold step
  split
  · rfl
  split
  · rename_i value below hunary
    rw [effect_negation (eq_neg_of_unary hunary)] at h
    cases h
  · rename_i rhs lhs below hbinary
    rw [effect_operation hbinary] at h
    cases happly : apply t lhs rhs with
    | error e' => simp [applyBinary, happly]
    | ok value =>
      rw [happly] at h
      cases h
  · rfl

/-- By induction on the tokens. -/
theorem trace_run (stack : List Float) (r : Recorder) (ts : List Token) :
    (run stack r ts).value.recorder.trace.steps.toList =
      r.trace.steps.toList ++ (reductions stack ts).map Reduction.step := by
  induction ts generalizing stack r with
  | nil => simp [run, reductions]
  | cons t rest ih =>
    have hanswer := answer_step stack t r
    rw [run, Logged.value_bind, reductions]
    cases heffect : effect stack t with
    | error e =>
      rw [heffect] at hanswer
      simp [hanswer, trace_step_error r heffect]
    | ok next =>
      rw [heffect] at hanswer
      simp only [hanswer]
      rw [ih, trace_step r heffect, List.map_append, List.append_assoc]

/-- A run makes its reductions from its own operators, and only where they have a result. -/
theorem madeOf_of_mem_reductions {r : Reduction} (h : r ∈ reductions stack ts) : r.MadeOf ts := by
  induction ts generalizing stack with
  | nil => cases h
  | cons t rest ih =>
    rw [reductions] at h
    cases heffect : effect stack t with
    | error e => simp [heffect] at h
    | ok next =>
      simp only [heffect, List.mem_append, Option.mem_toList] at h
      rcases h with hhere | hlater
      · rcases (supplied_of_effect heffect).cases with
          hoperand | ⟨hneg, value, below, rfl⟩ | ⟨hbinary, rhs, lhs, below, rfl⟩
        · rw [reduction?_of_isOperand hoperand] at hhere
          cases hhere
        · obtain rfl : Reduction.negation value = r := by
            simpa [reduction?, hneg, Kind.arity] using hhere
          trivial
        · obtain rfl : Reduction.operation t lhs rhs = r := by
            simpa [reduction?, hbinary] using hhere
          rw [effect_operation hbinary] at heffect
          cases happly : apply t lhs rhs with
          | error e =>
            rw [happly] at heffect
            cases heffect
          | ok value =>
            exact ⟨List.mem_cons_self, hbinary, by rw [happly, apply_eq_result hbinary happly]⟩
      · cases r with
        | negation value => trivial
        | operation op lhs rhs =>
          obtain ⟨hop, hmade⟩ := ih hlater
          exact ⟨List.mem_cons_of_mem t hop, hmade⟩

end Runs

theorem trace_execute_eq (p : Postfix) (r : Recorder) :
    (p.execute r).value.recorder.trace.steps.toList =
      (reductions [] p.tokens).map Reduction.step := by
  have hrun := trace_run [] r.clear p.tokens
  have hclear : r.clear.trace.steps.toList = [] := rfl
  rw [hclear, List.nil_append] at hrun
  rw [← hrun, execute, Logged.value_bind]
  rcases (run [] r.clear p.tokens).value with ⟨e | stack, after⟩
  · rfl
  · rcases stack with _ | ⟨value, _ | ⟨below, rest⟩⟩ <;> rfl

end Postfix

def tracePart? : Except Error Evaluation → Option Trace
  | .ok e => e.trace
  | .error e => e.trace?

/-- A trace is that of executing what the text was parsed into. -/
theorem exists_execution_of_trace {source : String} {debug : Bool} {trace : Trace}
    (h : tracePart? (evaluate source debug) = some trace) :
    ∃ ts p, Token.scan source = .ok ts ∧ Postfix.parse ts = .ok p ∧
      trace.steps.toList = (Postfix.reductions [] p.tokens).map Reduction.step := by
  cases hscan : Token.scan source with
  | error e =>
    rw [evaluate_of_scan_error hscan] at h
    cases h
  | ok ts =>
    cases hparse : Postfix.parse ts with
    | error e =>
      rw [evaluate_of_parse_error hscan hparse] at h
      cases h
    | ok p =>
      refine ⟨ts, p, rfl, hparse, ?_⟩
      rw [← Postfix.trace_execute_eq p (.new debug)]
      simp only [evaluate, evaluateLogged, hscan, hparse, Logged.value_bind] at h
      cases hanswer : (p.execute (.new debug)).value.answer with
      | error err =>
        simp only [hanswer, Logged.value_pure, tracePart?, Error.trace?, Option.some.injEq] at h
        rw [h]
      | ok value =>
        simp only [hanswer, Logged.value_pure, tracePart?] at h
        cases debug with
        | false => cases h
        | true =>
          cases h
          rfl

/-- The phrase is written as a number is shown, and stands for this number: it is a literal, or a
minus and a literal. -/
structure Phrase.Shows (e : Phrase) (x : Float) : Prop where
  unary : Phrase.At .unary e
  spelled : Token.Spelled e.yield
  text : Token.text e.yield = (Number.render x).toList
  reckoned : ∃ signs, e.tree.reckon = (.ok x, Reduction.signSteps signs)
  literalLast : ∃ front t, e.yield = front ++ [t] ∧ ∀ u ∈ front, u.kind.isOperand = false

def minusSign : Token := ⟨.neg, "-", .start⟩

section Shown

variable {x : Float}

theorem operand_cases {k : Kind} (h : k.isOperand = true) : k = .number ∨ k = .decimal := by
  cases k <;> first | exact .inl rfl | exact .inr rfl | cases h

theorem shows_literal {t : Token} (hkind : t.kind.isOperand = true)
    (hspells : t.kind.Spells t.lexeme.toList) (hlexeme : t.lexeme = Number.render x)
    (hvalue : Number.ofLiteral t.lexeme = x) : (Phrase.literal t).Shows x where
  unary := .unaryOfAtom (.literal (operand_cases hkind))
  spelled := by
    intro u hu
    obtain rfl := List.mem_singleton.mp hu
    exact hspells
  text := by simp [Phrase.yield, Token.text, hlexeme]
  reckoned := ⟨[], by rw [Phrase.tree, Tree.reckon, hvalue]; rfl⟩
  literalLast := ⟨[], t, rfl, by simp⟩

theorem shows_negation {t : Token} (h : (Phrase.literal t).Shows (-x))
    (hrender : Number.render x = "-" ++ Number.render (-x)) :
    (Phrase.negation minusSign (.literal t)).Shows x where
  unary := .negation rfl h.unary
  spelled := Phrase.spelled_negation rfl h.spelled
  text := by
    rw [Phrase.text_negation, h.text, hrender, String.toList_append]
    rfl
  reckoned := by
    obtain ⟨signs, hreckon⟩ := h.reckoned
    have hstep := Reduction.negationStep_eq (-x)
    rw [Number.neg_neg] at hstep
    refine ⟨signs ++ [-x], ?_⟩
    change Tree.reckon (.negation minusSign (Phrase.literal t).tree) = _
    rw [Tree.reckon, hreckon]
    simp [Number.neg_neg, hstep, Reduction.signSteps]
  literalLast := by
    refine ⟨[minusSign], t, rfl, fun u hu => ?_⟩
    obtain rfl := List.mem_singleton.mp hu
    rfl

/-- Every finite number is shown by a phrase. -/
theorem exists_shows (h : x.isFinite = true) : ∃ e : Phrase, e.Shows x := by
  rcases Number.unsigned_or_neg h with hx | hx
  · obtain ⟨k, hk, hspells, hvalue⟩ := hx.render_literal
    exact ⟨.literal ⟨k, Number.render x, .start⟩, shows_literal hk hspells rfl hvalue⟩
  · obtain ⟨k, hk, hspells, hvalue⟩ := hx.render_literal
    have hrender := hx.render_neg
    rw [Number.neg_neg] at hrender
    exact ⟨_, shows_negation (t := ⟨k, Number.render (-x), .start⟩)
      (shows_literal hk hspells rfl hvalue) hrender⟩

end Shown

section Expressions

variable {x : Float} {l r : Phrase} {op : Token}

/-- The left side of a step that negates is read as the negation of one number. -/
theorem evaluate_negation (h : x.isFinite = true) (debug : Bool) :
    ∃ signs, evaluate (Reduction.negation x).expression debug =
      .ok ((Reduction.negation x).answer signs debug) := by
  obtain ⟨e, he⟩ := exists_shows h
  obtain ⟨signs, hreckon⟩ := he.reckoned
  have hgroup : Phrase.At .atom e.grouped := .group rfl he.unary.sum_of_any rfl
  have hnegated : Phrase.At .unary (.negation minusSign e.grouped) :=
    .negation rfl (.unaryOfAtom hgroup)
  have hphrase := hnegated.sum_of_any
  have hspelled : Token.Spelled (Phrase.negation minusSign e.grouped).yield :=
    Phrase.spelled_negation rfl (Phrase.spelled_grouped he.spelled)
  have htext : String.ofList (Token.text (Phrase.negation minusSign e.grouped).yield) =
      (Reduction.negation x).expression := by
    rw [Phrase.text_negation, Phrase.text_grouped, he.text]
    refine String.toList_inj.mp ?_
    simp [Reduction.expression, minusSign, Tree.grouped]
    rfl
  have hread := hphrase.readFrom hspelled
  rw [htext] at hread
  have hvalue : (Phrase.negation minusSign e.grouped).tree.reckon =
      (.ok (-x), Reduction.signSteps signs ++ [(Reduction.negation x).step]) := by
    change Tree.reckon (.negation minusSign e.tree) = _
    rw [Tree.reckon, hreckon]
    simp only [Reduction.negationStep_eq]
  exact ⟨signs, hread.evaluate_eq hvalue debug⟩

theorem at_sum_operation (hop : op.kind.arity = some .binary) (hl : Phrase.At .unary l)
    (hr : Phrase.At .unary r) : Phrase.At .sum (.operation op l r) := by
  rcases Phrase.binary_cases hop with hk | hk | hk
  · exact .sum hk hl.sum_of_any (.productOfPower (.powerOfUnary hr))
  · exact .sumOfProduct (.product hk (.productOfPower (.powerOfUnary hl)) (.powerOfUnary hr))
  · exact (Phrase.At.power hk hl (.powerOfUnary hr)).sum_of_any

end Expressions

namespace Token

def bare (ts : List Token) : List (Token × List Char) := ts.map fun t => (t, [])

/-- An operator between two operands that end in `t` and in `u`, with one space on either side. -/
def between (front : List Token) (t op : Token) (back : List Token) (u : Token) :
    List (Token × List Char) :=
  bare front ++ (t, [' ']) :: (op, [' ']) :: (bare back ++ [(u, [])])

section Gaps

variable {front back : List Token} {t op u : Token}

theorem fst_bare (ts : List Token) : (bare ts).map Prod.fst = ts := by
  simp [bare, Function.comp_def]

theorem spread_bare (ts : List Token) : spread (bare ts) = text ts := by
  simp [bare, spread, text, List.flatMap_map]

theorem spread_append (us vs : List (Token × List Char)) :
    spread (us ++ vs) = spread us ++ spread vs :=
  List.flatMap_append

theorem spread_cons (v : Token × List Char) (us : List (Token × List Char)) :
    spread (v :: us) = v.1.lexeme.toList ++ v.2 ++ spread us :=
  List.flatMap_cons

theorem fst_between (front : List Token) (t op : Token) (back : List Token) (u : Token) :
    (between front t op back u).map Prod.fst = (front ++ [t]) ++ op :: (back ++ [u]) := by
  simp [between, fst_bare]

theorem spread_between (front : List Token) (t op : Token) (back : List Token) (u : Token) :
    spread (between front t op back u) =
      text (front ++ [t]) ++ ' ' :: (op.lexeme.toList ++ ' ' :: text (back ++ [u])) := by
  rw [between, spread_append, spread_bare, spread_cons, spread_cons, spread_append, spread_bare,
    text_append, text_append, spread_cons]
  simp [text, spread]

/-- The literals of either side are its last tokens, so that the space behind the first of them
is the only gap that is needed. -/
theorem spaced_between (hfront : ∀ v ∈ front, v.kind.isOperand = false)
    (hback : ∀ v ∈ back, v.kind.isOperand = false) :
    Spaced (between front t op back u) where
  blank := by
    intro v hv
    simp only [between, bare, List.mem_append, List.mem_cons, List.mem_map, List.not_mem_nil,
      or_false] at hv
    rcases hv with ⟨w, -, rfl⟩ | rfl | rfl | ⟨w, -, rfl⟩ | rfl <;>
      simp [Blank]
  parted := by
    have hparted : ∀ v ∈ bare front ++ (t, [' ']) :: (op, [' ']) :: bare back,
        v.1.kind.isOperand = true → v.2 ≠ [] := by
      intro v hv hoperand
      simp only [bare, List.mem_append, List.mem_cons, List.mem_map] at hv
      rcases hv with ⟨w, hw, rfl⟩ | rfl | rfl | ⟨w, hw, rfl⟩
      · simp [hfront w hw] at hoperand
      · simp
      · simp
      · simp [hback w hw] at hoperand
    have hsplit : between front t op back u =
        (bare front ++ (t, [' ']) :: (op, [' ']) :: bare back) ++ [(u, [])] := by
      simp [between]
    rw [hsplit]
    refine List.Pairwise.isChain (List.pairwise_append.mpr ⟨?_, List.pairwise_singleton _ _, ?_⟩)
    · exact List.pairwise_of_forall_mem_list fun v hv _ _ hoperand _ => hparted v hv hoperand
    · exact fun v hv _ _ hoperand _ => hparted v hv hoperand

end Gaps

end Token

/-- The left side of a step that applies an operator is read as this operator between the two
numbers. It has been applied to them before, so that it is not refused now. -/
theorem evaluate_operation {op : Token} (hop : op.kind.arity = some .binary)
    (hspells : op.kind.Spells op.lexeme.toList) {lhs rhs : Float} (hlhs : lhs.isFinite = true)
    (hrhs : rhs.isFinite = true) (happly : apply op lhs rhs = .ok (result op.kind lhs rhs))
    (debug : Bool) :
    ∃ signs, evaluate (Reduction.operation op lhs rhs).expression debug =
      .ok ((Reduction.operation op lhs rhs).answer signs debug) := by
  obtain ⟨l, hl⟩ := exists_shows hlhs
  obtain ⟨r, hr⟩ := exists_shows hrhs
  obtain ⟨front, t, hleft, hfront⟩ := hl.literalLast
  obtain ⟨back, u, hright, hback⟩ := hr.literalLast
  obtain ⟨before, hlreckon⟩ := hl.reckoned
  obtain ⟨after, hrreckon⟩ := hr.reckoned
  have hphrase := at_sum_operation hop hl.unary hr.unary
  have hspelled := Phrase.spelled_operation hspells hl.spelled hr.spelled
  have hwritten : (Token.between front t op back u).map Prod.fst = (Phrase.operation op l r).yield := by
    rw [Token.fst_between, ← hleft, ← hright]
    rfl
  have htext : String.ofList ([] ++ Token.spread (Token.between front t op back u)) =
      (Reduction.operation op lhs rhs).expression := by
    rw [List.nil_append, Token.spread_between, ← hleft, ← hright, hl.text, hr.text]
    refine String.toList_inj.mp ?_
    simp [Reduction.expression]
    rfl
  have hlead : Token.Blank [] := by simp [Token.Blank]
  have hread := hphrase.readFrom_spread hspelled hwritten hlead (Token.spaced_between hfront hback)
  rw [htext] at hread
  have hvalue : (Phrase.operation op l r).tree.reckon =
      (.ok (result op.kind lhs rhs),
        Reduction.signSteps (before ++ after) ++ [(Reduction.operation op lhs rhs).step]) := by
    rw [apply_of_binary hop] at happly
    change Tree.reckon (.operation op l.tree r.tree) = _
    rw [Tree.reckon, hlreckon, hrreckon]
    simp only [Reduction.operationStep_eq, Reduction.signSteps, List.map_append]
    split_ifs at happly ⊢
    rfl
  exact ⟨before ++ after, hread.evaluate_eq hvalue debug⟩

theorem evaluate_expression {ts : List Token} (hspelled : Token.Spelled ts) {r : Reduction}
    (hmade : r.MadeOf ts) (hfinite : r.Finite) (debug : Bool) :
    ∃ signs, evaluate r.expression debug = .ok (r.answer signs debug) := by
  cases r with
  | negation value => exact evaluate_negation hfinite debug
  | operation op lhs rhs =>
    obtain ⟨hmem, hop, happly⟩ := hmade
    exact evaluate_operation hop (hspelled op hmem) hfinite.1 hfinite.2 happly debug

/-- Every step of a trace is an equation between a text and a number, and as long as the operands
shown in it are finite, this number is what the text is evaluated to: by the same step, after no
others than those of the signs in front of the operands. -/
theorem trace_steps_evaluate {source : String} {debug : Bool} {trace : Trace}
    (h : tracePart? (evaluate source debug) = some trace) :
    ∃ ts p, Token.scan source = .ok ts ∧ Postfix.parse ts = .ok p ∧
      trace.steps.toList = (Postfix.reductions [] p.tokens).map Reduction.step ∧
      ∀ r ∈ Postfix.reductions [] p.tokens, r.Finite → ∀ debug', ∃ signs,
        evaluate r.expression debug' = .ok (r.answer signs debug') := by
  obtain ⟨ts, p, hscan, hparse, htrace⟩ := exists_execution_of_trace h
  refine ⟨ts, p, hscan, hparse, htrace, fun r hr hfinite debug' => ?_⟩
  obtain ⟨e, hlist, -, hmem⟩ := Postfix.exists_tree_of_parse hparse
  have hspelled : Token.Spelled p.tokens := by
    intro t ht
    rw [hlist] at ht
    exact (Token.scan_iff_scanned.mp hscan).spelled t (List.mem_of_mem_filter (hmem t ht))
  exact evaluate_expression hspelled (Postfix.madeOf_of_mem_reductions hr) hfinite debug'

/-- The tokens of `3 - -2`. -/
def subtractedNegativeTokens : List Token :=
  [⟨.number, "3", ⟨1, 1⟩⟩, ⟨.whitespace, " ", ⟨2, 1⟩⟩, ⟨.sub, "-", ⟨3, 1⟩⟩,
    ⟨.whitespace, " ", ⟨4, 1⟩⟩, ⟨.neg, "-", ⟨5, 1⟩⟩, ⟨.number, "2", ⟨6, 1⟩⟩]

def subtractedNegative : Phrase :=
  .operation ⟨.sub, "-", ⟨3, 1⟩⟩ (.literal ⟨.number, "3", ⟨1, 1⟩⟩)
    (.negation ⟨.neg, "-", ⟨5, 1⟩⟩ (.literal ⟨.number, "2", ⟨6, 1⟩⟩))

/-- The operator is read as a subtraction again in the step that is made of it, and the sign as a
negation. -/
theorem trace_steps_subtractedNegative :
    tracePart? (evaluate "3 - -2" true) = some ⟨#["-(2) = -2", "3 - -2 = 5"]⟩ ∧
      ∃ signs, evaluate "3 - -2" true =
        .ok ((Reduction.operation ⟨.sub, "-", ⟨3, 1⟩⟩ (Number.ofLiteral "3")
          (-Number.ofLiteral "2")).answer signs true) := by
  have hscan : Token.scan "3 - -2" = .ok subtractedNegativeTokens := by cbv
  have hliteral : ∀ {t : Token}, t.kind = .number → Phrase.At .unary (.literal t) :=
    fun ht => .unaryOfAtom (.literal (.inl ht))
  have hphrase : Phrase.At .sum subtractedNegative := by
    refine .sum (.inr rfl) (hliteral rfl).sum_of_any ?_
    exact .productOfPower (.powerOfUnary (.negation rfl (hliteral rfl)))
  have htrace : tracePart? (evaluate "3 - -2" true) = some ⟨#["-(2) = -2", "3 - -2 = 5"]⟩ := by
    rw [evaluate_of_phrase hscan hphrase rfl]
    decide +kernel
  refine ⟨htrace, ?_⟩
  obtain ⟨ts, p, hscan', hparse, -, hsteps⟩ := trace_steps_evaluate htrace
  obtain rfl : subtractedNegativeTokens = ts := Except.ok.inj (hscan.symm.trans hscan')
  obtain rfl : Postfix.arrange subtractedNegativeTokens = p := Except.ok.inj hparse
  have hreductions : Postfix.reductions [] (Postfix.arrange subtractedNegativeTokens).tokens =
      [.negation (Number.ofLiteral "2"), .operation ⟨.sub, "-", ⟨3, 1⟩⟩ (Number.ofLiteral "3")
        (-Number.ofLiteral "2")] := by
    rfl
  refine hsteps (.operation ⟨.sub, "-", ⟨3, 1⟩⟩ (Number.ofLiteral "3") (-Number.ofLiteral "2"))
    ?_ ⟨rfl, rfl⟩ true
  rw [hreductions]
  simp

end Calculator
