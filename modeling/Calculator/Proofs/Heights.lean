import Calculator.Proofs.Execution
import Calculator.Proofs.Reckoning

/-!
How many values an execution has on its stack. Each token raises or lowers the height of the stack
by an amount that its kind alone decides, and the listing of a tree raises it by one. So on tokens
that the check accepts no operator ever lacks an operand and one value is left at the end, whatever
the numbers are. The only tokens that can stop such an execution are literals that no number can be
read from and operators that are given a divisor of zero.
-/
namespace Calculator

open Arithmetic

/-- The height of the stack behind a token, from the height before it; none where the token cannot
be executed for want of operands, or at all. -/
def Kind.load (k : Kind) (height : Nat) : Option Nat :=
  if k.isOperand then some (height + 1)
  else match k.arity, height with
    | some .unary, below + 1 => some (below + 1)
    | some .binary, below + 2 => some (below + 1)
    | _, _ => none

theorem Kind.load_operand {k : Kind} (h : k.isOperand = true) (height : Nat) :
    k.load height = some (height + 1) := by
  simp [load, h]

theorem Kind.load_neg (height : Nat) : Kind.neg.load (height + 1) = some (height + 1) := rfl

theorem Kind.load_binary {k : Kind} (h : k.arity = some .binary) (height : Nat) :
    k.load (height + 2) = some (height + 1) := by
  cases k <;> first | rfl | cases h

def Token.heightBehind (height : Nat) (ts : List Token) : Option Nat :=
  ts.foldlM (fun h t => t.kind.load h) height

/-- The listing of a tree leaves one value on top of what was there. -/
theorem Tree.heightBehind_postorder {e : Tree} (h : e.WellKinded) (height : Nat) :
    Token.heightBehind height e.postorder = some (height + 1) := by
  induction e generalizing height with
  | literal t => simp [Token.heightBehind, postorder, Kind.load_operand h]
  | negation op e ih =>
    have hoperand := ih h.2 height
    unfold Token.heightBehind at hoperand ⊢
    simp [postorder, List.foldlM_append, hoperand, h.1, Kind.load_neg]
  | operation op l r ihl ihr =>
    have hlhs := ihl h.2.1 height
    have hrhs := ihr h.2.2 (height + 1)
    unfold Token.heightBehind at hlhs hrhs ⊢
    simp [postorder, List.foldlM_append, hlhs, hrhs, Kind.load_binary h.1]

def Token.Unreadable (t : Token) : Prop :=
  t.kind.isOperand = true ∧ Number.read? t.lexeme = none

namespace Postfix

/-- What a token does to the stack; the recorder has no part in it. -/
def effect (stack : List Float) (t : Token) : Except RuntimeError (List Float) :=
  (step stack t (.new false)).value.answer

/-- The tokens are executed one after the other without an error, on an empty stack, and leave
these values, the latest first. -/
def Reaches (front : List Token) (stack : List Float) : Prop :=
  front.foldlM effect [] = .ok stack

def Supplied (t : Token) (stack : List Float) : Prop :=
  t.kind.isOperand = true ∨ (t.kind.arity = some .unary ∧ 1 ≤ stack.length) ∨
    (t.kind.arity = some .binary ∧ 2 ≤ stack.length)

def ZeroDivisor (t : Token) (stack : List Float) : Prop :=
  ∃ rhs below, stack = rhs :: below ∧
    ((t.kind = .div ∧ Number.rational? rhs = some 0) ∨
      (t.kind = .mod ∧ (Number.rational? rhs).map Number.towardZero = some 0))

def refusal (t : Token) : RuntimeError :=
  if t.kind = .div then .divisionByZero t.position else .moduloByZero t.position

def Unfailing (ts : List Token) : Prop :=
  (∀ t ∈ ts, ¬t.Unreadable) ∧
    ∀ front op rest stack, ts = front ++ op :: rest → Reaches front stack → ¬ZeroDivisor op stack

section Effect

variable {stack next : List Float} {t : Token}

theorem answer_step (stack : List Float) (t : Token) (r : Recorder) :
    (step stack t r).value.answer = effect stack t := by
  unfold effect step
  split
  · rfl
  split
  · rfl
  · rename_i rhs lhs below _
    cases happly : apply t lhs rhs with
    | error e => simp [applyBinary, happly]
    | ok value => simp [applyBinary, happly]
  · rfl

theorem effect_operand (h : t.kind.isOperand = true) (stack : List Float) :
    effect stack t = (operand t).map (· :: stack) := by
  rw [effect, step_literal h, Logged.value_pure]

theorem effect_negation (h : t.kind = .neg) (value : Float) (stack : List Float) :
    effect (value :: stack) t = .ok (-value :: stack) := by
  rw [effect, step_negation h]
  rfl

theorem effect_operation (h : t.kind.arity = some .binary) (lhs rhs : Float)
    (stack : List Float) :
    effect (rhs :: lhs :: stack) t = (apply t lhs rhs).map (· :: stack) := by
  rw [effect, step_operation h]
  cases apply t lhs rhs with
  | error e => rfl
  | ok value => rfl

theorem eq_neg_of_unary {k : Kind} (h : k.arity = some .unary) : k = .neg := by
  cases k <;> first | rfl | cases h

/-- What can be done with a token, by the values that it needs. -/
theorem Supplied.cases (h : Supplied t stack) :
    t.kind.isOperand = true ∨ (t.kind = .neg ∧ ∃ value below, stack = value :: below) ∨
      (t.kind.arity = some .binary ∧ ∃ rhs lhs below, stack = rhs :: lhs :: below) := by
  rcases h with hoperand | ⟨hunary, hlength⟩ | ⟨hbinary, hlength⟩
  · exact .inl hoperand
  · exact .inr (.inl ⟨eq_neg_of_unary hunary, List.length_pos_iff_exists_cons.mp hlength⟩)
  · match stack, hlength with
    | rhs :: lhs :: below, _ => exact .inr (.inr ⟨hbinary, rhs, lhs, below, rfl⟩)

theorem ZeroDivisor.kind_cases (h : ZeroDivisor t stack) : t.kind = .div ∨ t.kind = .mod := by
  obtain ⟨_, _, _, ⟨hk, _⟩ | ⟨hk, _⟩⟩ := h
  · exact .inl hk
  · exact .inr hk

theorem ZeroDivisor.not_isOperand (h : ZeroDivisor t stack) : t.kind.isOperand = false := by
  rcases h.kind_cases with hk | hk <;> rw [hk] <;> rfl

theorem refusal_ne_malformedPostfix (t : Token) (q : Position) :
    refusal t ≠ .malformedPostfix q := by
  unfold refusal
  split <;> simp

/-- Where its operands are there, a token fails on account of its text or of a zero divisor. -/
theorem effect_eq_error_iff (h : Supplied t stack) {e : RuntimeError} :
    effect stack t = .error e ↔
      (t.Unreadable ∧ e = .malformedPostfix t.position) ∨
        (ZeroDivisor t stack ∧ e = refusal t) := by
  rcases h.cases with hoperand | ⟨hneg, value, below, rfl⟩ | ⟨hbinary, rhs, lhs, below, rfl⟩
  · have hzero : ¬ZeroDivisor t stack := by
      intro hzero
      rw [hzero.not_isOperand] at hoperand
      cases hoperand
    rw [effect_operand hoperand, operand]
    cases hread : Number.read? t.lexeme with
    | none => simp [Token.Unreadable, Except.map, hoperand, hread, hzero, eq_comm]
    | some value => simp [Token.Unreadable, Except.map, hread, hzero]
  · rw [effect_negation hneg]
    simp [Token.Unreadable, ZeroDivisor, hneg, Kind.isOperand]
  · have hreadable : ¬t.Unreadable := by
      intro hunreadable
      have hoperand := hunreadable.1
      rw [Kind.isOperand_of_binary hbinary] at hoperand
      cases hoperand
    rw [effect_operation hbinary, apply_of_binary hbinary]
    by_cases hdiv : t.kind = .div ∧ Number.rational? rhs = some 0
    · simp [hdiv, hreadable, ZeroDivisor, refusal, Except.map, eq_comm]
    by_cases hmod : t.kind = .mod ∧ (Number.rational? rhs).map Number.towardZero = some 0
    · have hzero : ZeroDivisor t (rhs :: lhs :: below) := ⟨rhs, lhs :: below, rfl, .inr hmod⟩
      rw [if_neg hdiv, if_pos hmod]
      simp [hmod.1, hzero, hreadable, refusal, Except.map, eq_comm]
    · rw [if_neg hdiv, if_neg hmod]
      have hzero : ¬ZeroDivisor t (rhs :: lhs :: below) := by
        rintro ⟨rhs', below', hstack, hrefused⟩
        cases hstack
        exact hrefused.elim hdiv hmod
      simp [hreadable, hzero, Except.map]

/-- An executed token moves the height of the stack as its kind says. -/
theorem load_of_effect (h : effect stack t = .ok next) :
    t.kind.load stack.length = some next.length := by
  by_cases hoperand : t.kind.isOperand = true
  · rw [effect_operand hoperand] at h
    rw [Kind.load_operand hoperand]
    cases hvalue : operand t with
    | error e => simp [hvalue, Except.map] at h
    | ok value =>
      simp only [hvalue, Except.map, Except.ok.injEq] at h
      simp [← h]
  · have hnone : t.kind.isOperand = false := by simpa using hoperand
    match hk : t.kind.arity, stack with
    | some .unary, value :: below =>
      have hneg := eq_neg_of_unary hk
      rw [effect_negation hneg] at h
      cases h
      simp [hneg, Kind.load_neg]
    | some .binary, rhs :: lhs :: below =>
      rw [effect_operation hk] at h
      cases hvalue : apply t lhs rhs with
      | error e => simp [hvalue, Except.map] at h
      | ok value =>
        simp only [hvalue, Except.map, Except.ok.injEq] at h
        simp [← h, Kind.load_binary hk]
    | none, _ | some .unary, [] | some .binary, [] | some .binary, [_] =>
      simp [effect, step, hnone, hk] at h

theorem supplied_of_load (h : (t.kind.load stack.length).isSome = true) : Supplied t stack := by
  by_cases hoperand : t.kind.isOperand = true
  · exact .inl hoperand
  · have hnone : t.kind.isOperand = false := by simpa using hoperand
    match hk : t.kind.arity, stack with
    | some .unary, _ :: _ => exact .inr (.inl ⟨hk, by simp⟩)
    | some .binary, _ :: _ :: _ => exact .inr (.inr ⟨hk, by simp⟩)
    | none, _ | some .unary, [] | some .binary, [] | some .binary, [_] =>
      simp [Kind.load, hnone, hk] at h

end Effect

section Runs

variable {stack next : List Float} {ts front rest : List Token} {t : Token}

theorem foldlM_of_ok (h : effect stack t = .ok next) (rest : List Token) :
    (t :: rest).foldlM effect stack = rest.foldlM effect next := by
  rw [List.foldlM_cons, h]
  rfl

theorem foldlM_of_error {e : RuntimeError} (h : effect stack t = .error e) (rest : List Token) :
    (t :: rest).foldlM effect stack = .error e := by
  rw [List.foldlM_cons, h]
  rfl

theorem answer_run (stack : List Float) (r : Recorder) (ts : List Token) :
    (run stack r ts).value.answer = ts.foldlM effect stack := by
  induction ts generalizing stack r with
  | nil => rfl
  | cons t rest ih =>
    have hstep := answer_step stack t r
    rw [run, Logged.value_bind]
    cases hanswer : (step stack t r).value.answer with
    | error e =>
      rw [foldlM_of_error (hstep.symm.trans hanswer)]
      simp [hanswer]
    | ok next =>
      rw [foldlM_of_ok (hstep.symm.trans hanswer)]
      simpa [hanswer] using ih next _

theorem answer_execute_eq (p : Postfix) (r : Recorder) :
    (p.execute r).value.answer =
      match p.tokens.foldlM effect [] with
      | .error e => .error e
      | .ok [value] => .ok value
      | .ok _ => .error (.malformedPostfix p.lastPosition) := by
  rw [← answer_run [] r.clear p.tokens, execute, Logged.value_bind]
  rcases (run [] r.clear p.tokens).value with ⟨e | stack, after⟩
  · rfl
  · rcases stack with _ | ⟨value, _ | ⟨below, rest⟩⟩ <;> rfl

/-- Every token in front of a reached one has been executed. -/
theorem Reaches.executed (h : Reaches (front ++ t :: rest) stack) :
    ∃ before after, Reaches front before ∧ effect before t = .ok after := by
  rw [Reaches, List.foldlM_append] at h
  cases hfront : front.foldlM effect [] with
  | error e =>
    rw [hfront] at h
    cases h
  | ok before =>
    rw [hfront] at h
    change (t :: rest).foldlM effect before = _ at h
    cases hstep : effect before t with
    | error e =>
      rw [foldlM_of_error hstep] at h
      cases h
    | ok after => exact ⟨before, after, hfront, hstep⟩

/-- A run that fails does so at one token, which it reaches. -/
theorem exists_of_foldlM_error {e : RuntimeError} (h : ts.foldlM effect stack = .error e) :
    ∃ front t rest before, ts = front ++ t :: rest ∧ front.foldlM effect stack = .ok before ∧
      effect before t = .error e := by
  induction ts generalizing stack with
  | nil => cases h
  | cons t ts ih =>
    cases hstep : effect stack t with
    | error e' =>
      rw [foldlM_of_error hstep] at h
      cases h
      exact ⟨[], t, ts, stack, rfl, rfl, hstep⟩
    | ok next =>
      rw [foldlM_of_ok hstep] at h
      obtain ⟨front, u, rest, before, rfl, hfront, herror⟩ := ih h
      refine ⟨t :: front, u, rest, before, rfl, ?_, herror⟩
      rw [foldlM_of_ok hstep]
      exact hfront

theorem Reaches.foldlM_error (h : Reaches front stack) {e : RuntimeError}
    (herror : effect stack t = .error e) (rest : List Token) :
    (front ++ t :: rest).foldlM effect [] = .error e := by
  rw [Reaches] at h
  rw [List.foldlM_append, h]
  exact foldlM_of_error herror rest

/-- By induction on the tokens, the height of the stack is known wherever an execution is. -/
theorem heightBehind_of_foldlM (h : ts.foldlM effect stack = .ok next) :
    Token.heightBehind stack.length ts = some next.length := by
  induction ts generalizing stack with
  | nil =>
    cases h
    rfl
  | cons t rest ih =>
    cases hstep : effect stack t with
    | error e =>
      rw [foldlM_of_error hstep] at h
      cases h
    | ok mid =>
      rw [foldlM_of_ok hstep] at h
      rw [Token.heightBehind, List.foldlM_cons, load_of_effect hstep]
      exact ih h

theorem not_unreadable_of_effect (h : effect stack t = .ok next) :
    ¬t.Unreadable := by
  intro hunreadable
  rw [effect_operand hunreadable.1, operand, hunreadable.2] at h
  cases h

theorem supplied_of_effect (h : effect stack t = .ok next) :
    Supplied t stack :=
  supplied_of_load (by rw [load_of_effect h]; rfl)

theorem not_zeroDivisor_of_effect (h : effect stack t = .ok next) :
    ¬ZeroDivisor t stack := by
  intro hzero
  have herror := (effect_eq_error_iff (supplied_of_effect h)).mpr (.inr ⟨hzero, rfl⟩)
  rw [h] at herror
  cases herror

/-- Whatever has been executed has not failed. -/
theorem Reaches.unfailing (h : Reaches front stack) : Unfailing front := by
  refine ⟨fun t ht => ?_, fun earlier op later before hsplit hbefore => ?_⟩
  · obtain ⟨earlier, later, rfl⟩ := List.append_of_mem ht
    obtain ⟨before, after, -, hstep⟩ := h.executed
    exact not_unreadable_of_effect hstep
  · rw [hsplit] at h
    obtain ⟨before', after, hbefore', hstep⟩ := h.executed
    rw [Reaches] at hbefore hbefore'
    rw [hbefore] at hbefore'
    cases hbefore'
    exact not_zeroDivisor_of_effect hstep

end Runs

section Listings

variable {e : Tree} {front rest : List Token} {t : Token} {stack : List Float}

/-- In the listing of a tree every token finds its operands. -/
theorem supplied_of_postorder (h : e.WellKinded) (hlist : e.postorder = front ++ t :: rest)
    (hreach : Reaches front stack) : Supplied t stack := by
  have htotal := Tree.heightBehind_postorder h 0
  have hfront : Token.heightBehind 0 front = some stack.length := heightBehind_of_foldlM hreach
  refine supplied_of_load ?_
  rw [hlist, Token.heightBehind, List.foldlM_append] at htotal
  rw [Token.heightBehind] at hfront
  rw [hfront] at htotal
  cases hload : t.kind.load stack.length with
  | none => simp [hload] at htotal
  | some height => rfl

/-- Behind the whole listing one value is left. -/
theorem exists_value_of_postorder (h : e.WellKinded) (hreach : Reaches e.postorder stack) :
    ∃ value, stack = [value] := by
  have htotal := Tree.heightBehind_postorder h 0
  have hlength : Token.heightBehind 0 e.postorder = some stack.length := heightBehind_of_foldlM hreach
  rw [htotal] at hlength
  exact List.length_eq_one_iff.mp (Option.some.inj hlength).symm

/-- Tokens at the front of a listing are executed if none of them fails. -/
theorem exists_reaches (h : e.WellKinded) (hlist : e.postorder = front ++ rest)
    (hclear : Unfailing front) : ∃ stack, Reaches front stack := by
  cases hrun : front.foldlM effect [] with
  | ok stack => exact ⟨stack, hrun⟩
  | error err =>
    obtain ⟨earlier, t, later, before, rfl, hbefore, herror⟩ := exists_of_foldlM_error hrun
    have hsplit : e.postorder = earlier ++ t :: (later ++ rest) := by
      rw [hlist, List.append_assoc, List.cons_append]
    have hsupplied := supplied_of_postorder h hsplit hbefore
    rcases (effect_eq_error_iff hsupplied).mp herror with ⟨hunreadable, -⟩ | ⟨hzero, -⟩
    · exact absurd hunreadable (hclear.1 t (by simp))
    · exact absurd hzero (hclear.2 earlier t later before rfl hbefore)

end Listings

section Answers

variable {p : Postfix} {e : Tree} {front rest : List Token} {t : Token}

theorem answer_of_reaches_error (hlist : p.tokens = front ++ t :: rest) {stack : List Float}
    (hreach : Reaches front stack) {err : RuntimeError} (herror : effect stack t = .error err)
    (r : Recorder) : (p.execute r).value.answer = .error err := by
  rw [answer_execute_eq, hlist, hreach.foldlM_error herror]

theorem exists_value_of_unfailing (hlist : p.tokens = e.postorder) (h : e.WellKinded)
    (hclear : Unfailing p.tokens) :
    ∃ value, Reaches p.tokens [value] ∧ ∀ r, (p.execute r).value.answer = .ok value := by
  obtain ⟨stack, hreach⟩ := exists_reaches h (hlist.symm.trans (List.append_nil _).symm) hclear
  obtain ⟨value, rfl⟩ := exists_value_of_postorder h (hlist ▸ hreach)
  refine ⟨value, hreach, fun r => ?_⟩
  rw [Reaches] at hreach
  rw [answer_execute_eq, hreach]

/-- An execution that fails does so at a token that it reaches, not for the values that are left. -/
theorem exists_of_execute_error (hlist : p.tokens = e.postorder) (h : e.WellKinded) {r : Recorder}
    {err : RuntimeError} (hanswer : (p.execute r).value.answer = .error err) :
    ∃ front t rest stack, p.tokens = front ++ t :: rest ∧ Reaches front stack ∧
      effect stack t = .error err := by
  rw [answer_execute_eq] at hanswer
  cases hrun : p.tokens.foldlM effect [] with
  | ok stack =>
    obtain ⟨value, rfl⟩ := exists_value_of_postorder h (hlist ▸ hrun)
    rw [hrun] at hanswer
    cases hanswer
  | error err' =>
    rw [hrun] at hanswer
    cases hanswer
    exact exists_of_foldlM_error hrun

/-- Only an unreadable literal is a malformed sequence, since no token lacks its operands. -/
theorem answer_eq_malformed_iff (hlist : p.tokens = e.postorder) (h : e.WellKinded)
    (r : Recorder) (q : Position) :
    (p.execute r).value.answer = .error (.malformedPostfix q) ↔
      ∃ front t rest, p.tokens = front ++ t :: rest ∧ Unfailing front ∧ t.Unreadable ∧
        t.position = q := by
  constructor
  · intro hanswer
    obtain ⟨front, t, rest, stack, hsplit, hreach, herror⟩ :=
      exists_of_execute_error hlist h hanswer
    have hsupplied := supplied_of_postorder h (hlist.symm.trans hsplit) hreach
    rcases (effect_eq_error_iff hsupplied).mp herror with ⟨hunreadable, heq⟩ | ⟨-, heq⟩
    · cases heq
      exact ⟨front, t, rest, hsplit, hreach.unfailing, hunreadable, rfl⟩
    · exact absurd heq.symm (refusal_ne_malformedPostfix t q)
  · rintro ⟨front, t, rest, hsplit, hclear, hunreadable, rfl⟩
    obtain ⟨stack, hreach⟩ := exists_reaches h (hlist.symm.trans hsplit) hclear
    have hsupplied := supplied_of_postorder h (hlist.symm.trans hsplit) hreach
    have herror := (effect_eq_error_iff hsupplied).mpr (.inl ⟨hunreadable, rfl⟩)
    exact answer_of_reaches_error hsplit hreach herror r

end Answers

end Postfix

namespace Token

theorem readable_of_scan {source : String} {ts : List Token} (h : scan source = .ok ts) {t : Token}
    (ht : t ∈ ts) : ¬t.Unreadable := by
  rintro ⟨hoperand, hnone⟩
  have hread := Number.read?_literal hoperand ((scan_iff_scanned.mp h).spelled t ht)
  rw [hnone] at hread
  cases hread

end Token

namespace Postfix

/-- What a parsed sequence is rearranged into: the listing of a tree. -/
theorem exists_tree_of_parse {ts : List Token} {p : Postfix} (h : parse ts = .ok p) :
    ∃ e : Tree, p.tokens = e.postorder ∧ e.WellKinded ∧
      ∀ t ∈ e.postorder, t ∈ Token.significant ts := by
  have hcheck := check_of_parse h
  obtain ⟨e, he, hyield⟩ := (Phrase.check_iff_exists_phrase ts).mp hcheck
  rw [parse, hcheck] at h
  cases h
  refine ⟨e.tree, he.arrange hyield, he.wellKinded, fun t ht => ?_⟩
  rw [← hyield]
  exact Phrase.mem_yield_of_mem_postorder ht

end Postfix

/-- The stage that an error comes from has failed with it, and the stages before have not. -/
theorem evaluate_error_cases {source : String} {debug : Bool} {e : Error}
    (h : evaluate source debug = .error e) :
    (∃ err, e = .lexical err ∧ Token.scan source = .error err) ∨
      ∃ ts, Token.scan source = .ok ts ∧
        ((∃ err, e = .syntactic err ∧ Grammar.check ts = .error err) ∨
          ∃ p err trace, e = .runtime err trace ∧ Postfix.parse ts = .ok p ∧
            (p.execute (.new debug)).value.answer = .error err) := by
  cases hscan : Token.scan source with
  | error err =>
    rw [evaluate_of_scan_error hscan] at h
    cases h
    exact .inl ⟨err, rfl, rfl⟩
  | ok ts =>
    refine .inr ⟨ts, rfl, ?_⟩
    cases hcheck : Grammar.check ts with
    | error err =>
      rw [evaluate_of_check_error hscan hcheck] at h
      cases h
      exact .inl ⟨err, rfl, rfl⟩
    | ok _ =>
      have hparse : Postfix.parse ts = .ok (Postfix.arrange ts) := by rw [Postfix.parse, hcheck]
      simp only [evaluate, evaluateLogged, hscan, hparse, Logged.value_bind] at h
      cases hanswer : ((Postfix.arrange ts).execute (.new debug)).value.answer with
      | error err =>
        simp only [hanswer, Logged.value_pure, Except.error.injEq] at h
        exact .inr ⟨_, err, _, h.symm, hparse, hanswer⟩
      | ok value => simp [hanswer] at h

theorem evaluate_ne_malformedPostfix (source : String) (debug : Bool) (q : Position)
    (trace : Trace) : evaluate source debug ≠ .error (.runtime (.malformedPostfix q) trace) := by
  intro h
  obtain ⟨err, herr, -⟩ | ⟨ts, hscan, ⟨err, herr, -⟩ | ⟨p, err, trace', herr, hparse, hanswer⟩⟩ :=
    evaluate_error_cases h <;> cases herr
  obtain ⟨e, hlist, hkind, hmem⟩ := Postfix.exists_tree_of_parse hparse
  obtain ⟨front, t, rest, hsplit, -, hunreadable, -⟩ :=
    (Postfix.answer_eq_malformed_iff hlist hkind _ q).mp hanswer
  have ht : t ∈ e.postorder := by
    rw [← hlist, hsplit]
    simp
  exact Token.readable_of_scan hscan (List.mem_of_mem_filter (hmem t ht)) hunreadable

namespace Postfix

/-- An execution of accepted tokens finds the operands of every token that it reaches. It calls the
sequence malformed exactly if an unreadable literal comes before any divisor of zero, and at the
first such literal; it stops at the first divisor of zero that it meets; and otherwise it ends with
one value. Scanned tokens have no unreadable literals, and so no evaluation of a text ever finds
its own sequence malformed. -/
theorem execute_parsed :
    (∀ ts p, parse ts = .ok p →
      (∀ front t rest stack, p.tokens = front ++ t :: rest → Reaches front stack →
        Supplied t stack) ∧
      ∀ r, p.executeAlone.value.map Execution.value = (p.execute r).value.answer ∧
        (∀ q, (p.execute r).value.answer = .error (.malformedPostfix q) ↔
          ∃ front t rest, p.tokens = front ++ t :: rest ∧ Unfailing front ∧ t.Unreadable ∧
            t.position = q) ∧
        (∀ front op rest stack, p.tokens = front ++ op :: rest → Reaches front stack →
          ZeroDivisor op stack → (p.execute r).value.answer = .error (refusal op)) ∧
        (Unfailing p.tokens →
          ∃ value, Reaches p.tokens [value] ∧ (p.execute r).value.answer = .ok value)) ∧
    (∀ source ts, Token.scan source = .ok ts → ∀ t ∈ ts, ¬t.Unreadable) ∧
      ∀ source debug q trace,
        evaluate source debug ≠ .error (.runtime (.malformedPostfix q) trace) := by
  refine ⟨fun ts p h => ?_, fun source ts h t ht => Token.readable_of_scan h ht,
    evaluate_ne_malformedPostfix⟩
  obtain ⟨e, hlist, hkind, -⟩ := exists_tree_of_parse h
  have hsupplied : ∀ front t rest stack, p.tokens = front ++ t :: rest → Reaches front stack →
      Supplied t stack := by
    intro front t rest stack hsplit hreach
    exact supplied_of_postorder hkind (hlist.symm.trans hsplit) hreach
  refine ⟨hsupplied, fun r => ⟨?_, answer_eq_malformed_iff hlist hkind r, ?_, ?_⟩⟩
  · rw [value_executeAlone, answer_execute p r]
    cases (p.execute (.new false)).value.answer with
    | error err => rfl
    | ok value => rfl
  · intro front op rest stack hsplit hreach hzero
    have hthere := hsupplied front op rest stack hsplit hreach
    have hrefused := (effect_eq_error_iff hthere).mpr (.inr ⟨hzero, rfl⟩)
    exact answer_of_reaches_error hsplit hreach hrefused r
  · intro hclear
    obtain ⟨value, hreach, hanswer⟩ := exists_value_of_unfailing hlist hkind hclear
    exact ⟨value, hreach, hanswer r⟩

/-- The tokens of `4 - two / 0`, with a word where a number should be. -/
def wordOperand : List Token :=
  [⟨.number, "4", ⟨1, 1⟩⟩, ⟨.sub, "-", ⟨3, 1⟩⟩, ⟨.number, "two", ⟨5, 1⟩⟩, ⟨.div, "/", ⟨9, 1⟩⟩,
    ⟨.number, "0", ⟨11, 1⟩⟩]

/-- The word is reached first, and the division by zero behind it is not. -/
theorem execute_wordOperand :
    ∃ p, parse wordOperand = .ok p ∧
      p.tokens.map Token.lexeme = ["4", "two", "0", "/", "-"] ∧
        ∀ r, (p.execute r).value.answer = .error (.malformedPostfix ⟨5, 1⟩) := by
  have hparse : parse wordOperand = .ok (arrange wordOperand) := rfl
  have hfour : Reaches [⟨.number, "4", ⟨1, 1⟩⟩] [Number.ofLiteral "4"] := by
    have hread : Number.read? "4" = some (Number.ofLiteral "4") :=
      Number.read?_literal (k := .number) rfl ⟨by decide, by simp⟩
    have hpush : effect [] ⟨.number, "4", ⟨1, 1⟩⟩ = .ok [Number.ofLiteral "4"] := by
      rw [effect_operand rfl, operand, hread]
      rfl
    rw [Reaches, foldlM_of_ok hpush]
    rfl
  refine ⟨arrange wordOperand, hparse, rfl, fun r => ?_⟩
  obtain ⟨-, hmalformed, -, -⟩ := (execute_parsed.1 wordOperand _ hparse).2 r
  refine (hmalformed ⟨5, 1⟩).mpr
    ⟨[⟨.number, "4", ⟨1, 1⟩⟩], ⟨.number, "two", ⟨5, 1⟩⟩, _, rfl, hfour.unfailing, ⟨rfl, ?_⟩, rfl⟩
  rfl

end Postfix

end Calculator
