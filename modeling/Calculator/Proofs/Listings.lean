import Calculator.Proofs.Heights

/-!
Which sequences an execution gives a value for. Read with trees in the place of numbers, a sequence
builds a stack of trees that lists exactly the tokens read, and one token fails to find its operands
in both readings. So a sequence that leaves one number is the listing of one tree and of no other,
and the number is the value of that tree. Any other sequence stops at a token that cannot be
executed, at a divisor of zero, or at its end.
-/
namespace Calculator

namespace Tree

/-- A token takes its operands from the latest trees. -/
def join (forest : List Tree) (t : Token) : Option (List Tree) :=
  if t.kind.isOperand then some (.literal t :: forest)
  else match t.kind.arity, forest with
    | some .unary, e :: below => some (.negation t e :: below)
    | some .binary, r :: l :: below => some (.operation t l r :: below)
    | _, _ => none

def listing (forest : List Tree) : List Token := forest.reverse.flatMap postorder

section Joining

variable {forest next : List Tree} {t : Token}

theorem join_operand (h : t.kind.isOperand = true) (forest : List Tree) :
    join forest t = some (.literal t :: forest) := by
  simp [join, h]

theorem join_negation (h : t.kind = .neg) (e : Tree) (forest : List Tree) :
    join (e :: forest) t = some (.negation t e :: forest) := by
  simp [join, h, Kind.isOperand, Kind.arity]

theorem join_operation (h : t.kind.arity = some .binary) (l r : Tree) (forest : List Tree) :
    join (r :: l :: forest) t = some (.operation t l r :: forest) := by
  simp [join, h, Kind.isOperand_of_binary h]

theorem listing_cons (e : Tree) (forest : List Tree) :
    listing (e :: forest) = listing forest ++ e.postorder := by
  simp [listing]

/-- A token finds its operands among trees where it finds them among numbers. -/
theorem length_join (forest : List Tree) (t : Token) :
    (join forest t).map List.length = t.kind.load forest.length := by
  unfold join Kind.load
  split
  · rfl
  · match t.kind.arity, forest with
    | some .unary, _ :: _ => rfl
    | some .binary, _ :: _ :: _ => rfl
    | none, _ | some .unary, [] | some .binary, [] | some .binary, [_] => rfl

/-- The trees list one token more, and are well kinded if they were. -/
theorem listing_join (h : join forest t = some next) (hkind : ∀ e ∈ forest, e.WellKinded) :
    listing next = listing forest ++ [t] ∧ ∀ e ∈ next, e.WellKinded := by
  by_cases hoperand : t.kind.isOperand = true
  · rw [join_operand hoperand] at h
    cases h
    exact ⟨listing_cons _ _, List.forall_mem_cons.mpr ⟨hoperand, hkind⟩⟩
  match hk : t.kind.arity, forest with
  | some .unary, e :: below =>
    have hneg := Postfix.eq_neg_of_unary hk
    rw [join_negation hneg] at h
    cases h
    obtain ⟨he, hbelow⟩ := List.forall_mem_cons.mp hkind
    refine ⟨?_, List.forall_mem_cons.mpr ⟨⟨hneg, he⟩, hbelow⟩⟩
    rw [listing_cons, listing_cons, postorder, List.append_assoc]
  | some .binary, r :: l :: below =>
    rw [join_operation hk] at h
    cases h
    obtain ⟨hr, hrest⟩ := List.forall_mem_cons.mp hkind
    obtain ⟨hl, hbelow⟩ := List.forall_mem_cons.mp hrest
    refine ⟨?_, List.forall_mem_cons.mpr ⟨⟨hk, hl, hr⟩, hbelow⟩⟩
    rw [listing_cons, listing_cons, listing_cons, postorder, List.append_assoc, List.append_assoc,
      List.append_assoc]
  | none, _ | some .unary, [] | some .binary, [] | some .binary, [_] =>
    simp [join, hoperand, hk] at h

end Joining

section Reading

variable {forest next : List Tree} {ts : List Token}

/-- The listing of a tree is read as that tree. -/
theorem foldlM_join_postorder {e : Tree} (h : e.WellKinded) (forest : List Tree) :
    e.postorder.foldlM join forest = some (e :: forest) := by
  induction e generalizing forest with
  | literal t => simp [postorder, join_operand h]
  | negation op e ih =>
    rw [postorder, List.foldlM_append, ih h.2]
    simp [join_negation h.1]
  | operation op l r ihl ihr =>
    rw [postorder, List.foldlM_append, List.foldlM_append, ihl h.2.1]
    simp [ihr h.2.2, join_operation h.1]

/-- No two trees have the same listing. -/
theorem eq_of_postorder_eq {e e' : Tree} (h : e.WellKinded) (h' : e'.WellKinded)
    (heq : e.postorder = e'.postorder) : e = e' := by
  have hread := foldlM_join_postorder h []
  rw [heq, foldlM_join_postorder h' []] at hread
  exact (List.head_eq_of_cons_eq (Option.some.inj hread)).symm

theorem length_foldlM_join (ts : List Token) (forest : List Tree) :
    (ts.foldlM join forest).map List.length = Token.heightBehind forest.length ts := by
  induction ts generalizing forest with
  | nil => rfl
  | cons t ts ih =>
    have hone := length_join forest t
    rw [Token.heightBehind, List.foldlM_cons, List.foldlM_cons, ← hone]
    cases join forest t with
    | none => rfl
    | some next => exact ih next

/-- By induction on the tokens: the trees that have been read list the tokens read. -/
theorem listing_foldlM_join (h : ts.foldlM join forest = some next)
    (hkind : ∀ e ∈ forest, e.WellKinded) :
    listing next = listing forest ++ ts ∧ ∀ e ∈ next, e.WellKinded := by
  induction ts generalizing forest with
  | nil =>
    cases h
    exact ⟨(List.append_nil _).symm, hkind⟩
  | cons t ts ih =>
    rw [List.foldlM_cons] at h
    cases hone : join forest t with
    | none =>
      rw [hone] at h
      cases h
    | some mid =>
      rw [hone] at h
      obtain ⟨hmid, hmidKind⟩ := listing_join hone hkind
      obtain ⟨hnext, hnextKind⟩ := ih h hmidKind
      refine ⟨?_, hnextKind⟩
      rw [hnext, hmid, List.append_assoc]
      rfl

/-- A sequence that leaves one value is the listing of a tree. -/
theorem exists_postorder_eq_iff (ts : List Token) :
    (∃ e : Tree, e.WellKinded ∧ e.postorder = ts) ↔ Token.heightBehind 0 ts = some 1 := by
  constructor
  · rintro ⟨e, he, rfl⟩
    exact heightBehind_postorder he 0
  · intro h
    have hlength := length_foldlM_join ts []
    rw [List.length_nil, h] at hlength
    obtain ⟨forest, hforest, hone⟩ := Option.map_eq_some_iff.mp hlength
    obtain ⟨e, rfl⟩ := List.length_eq_one_iff.mp hone
    obtain ⟨hlisting, hkind⟩ := listing_foldlM_join hforest nofun
    refine ⟨e, hkind e List.mem_cons_self, ?_⟩
    simpa [listing] using hlisting

end Reading

end Tree

namespace Postfix

open Arithmetic

section Answers

variable {p : Postfix} {stack : List Float} {t : Token}

theorem effect_of_not_supplied (h : ¬Supplied t stack) :
    effect stack t = .error (.malformedPostfix t.position) := by
  have hoperand : t.kind.isOperand = false := by
    rw [← Bool.not_eq_true]
    exact fun hoperand => h (.inl hoperand)
  match hk : t.kind.arity, stack with
  | some .unary, _ :: _ => exact absurd (.inr (.inl ⟨hk, by simp⟩)) h
  | some .binary, _ :: _ :: _ => exact absurd (.inr (.inr ⟨hk, by simp⟩)) h
  | none, _ | some .unary, [] | some .binary, [] | some .binary, [_] =>
    simp [effect, step, hoperand, hk]

/-- A token cannot be executed for want of a number in its text or of operands on the stack; a
divisor of zero is another matter. -/
theorem effect_eq_malformed_iff {q : Position} :
    effect stack t = .error (.malformedPostfix q) ↔
      (t.Unreadable ∨ ¬Supplied t stack) ∧ t.position = q := by
  by_cases hsupplied : Supplied t stack
  · rw [effect_eq_error_iff hsupplied]
    constructor
    · rintro (⟨hunreadable, heq⟩ | ⟨-, heq⟩)
      · cases heq
        exact ⟨.inl hunreadable, rfl⟩
      · exact absurd heq.symm (refusal_ne_malformedPostfix t q)
    · rintro ⟨hunreadable | hnot, rfl⟩
      · exact .inl ⟨hunreadable, rfl⟩
      · exact absurd hsupplied hnot
  · rw [effect_of_not_supplied hsupplied]
    simp [hsupplied]

/-- The answer for the listing of a tree is the value of the tree. -/
theorem answer_of_postorder {e : Tree} (h : e.WellKinded) (hp : e.postorder = p.tokens)
    (r : Recorder) : (p.execute r).value.answer = e.evaluate.1 := by
  rw [execute_postorder hp.symm h]
  rcases e.evaluate with ⟨err | value, steps⟩ <;> rfl

theorem answer_of_reaches {value : Float} (h : Reaches p.tokens [value]) (r : Recorder) :
    (p.execute r).value.answer = .ok value := by
  rw [Reaches] at h
  rw [answer_execute_eq, h]

/-- Where all tokens are executed and another number of values than one is left, it shows at the
end. -/
theorem answer_of_leftover (h : Reaches p.tokens stack) (hlength : stack.length ≠ 1)
    (r : Recorder) : (p.execute r).value.answer = .error (.malformedPostfix p.lastPosition) := by
  rw [Reaches] at h
  rw [answer_execute_eq, h]
  rcases stack with _ | ⟨value, _ | ⟨below, rest⟩⟩
  · rfl
  · exact absurd rfl hlength
  · rfl

/-- An execution ends with one value, with another number of values, or at a token. -/
theorem answer_cases (p : Postfix) (r : Recorder) :
    (∃ value, Reaches p.tokens [value] ∧ (p.execute r).value.answer = .ok value) ∨
      (∃ stack, Reaches p.tokens stack ∧ stack.length ≠ 1 ∧
        (p.execute r).value.answer = .error (.malformedPostfix p.lastPosition)) ∨
      ∃ front t rest stack err, p.tokens = front ++ t :: rest ∧ Reaches front stack ∧
        effect stack t = .error err ∧ (p.execute r).value.answer = .error err := by
  cases hrun : p.tokens.foldlM effect [] with
  | error err =>
    obtain ⟨front, t, rest, stack, hsplit, hreach, herror⟩ := exists_of_foldlM_error hrun
    exact .inr (.inr ⟨front, t, rest, stack, err, hsplit, hreach, herror,
      answer_of_reaches_error hsplit hreach herror r⟩)
  | ok stack =>
    by_cases hlength : stack.length = 1
    · obtain ⟨value, rfl⟩ := List.length_eq_one_iff.mp hlength
      exact .inl ⟨value, hrun, answer_of_reaches hrun r⟩
    · exact .inr (.inl ⟨stack, hrun, hlength, answer_of_leftover hrun hlength r⟩)

/-- Only the listing of a tree leaves one value. -/
theorem Reaches.exists_tree {value : Float} (h : Reaches p.tokens [value]) :
    ∃ e : Tree, e.WellKinded ∧ e.postorder = p.tokens :=
  (Tree.exists_postorder_eq_iff p.tokens).mpr (heightBehind_of_foldlM h)

theorem answer_eq_ok_iff (p : Postfix) (r : Recorder) (value : Float) :
    (p.execute r).value.answer = .ok value ↔
      ∃ e : Tree, e.WellKinded ∧ e.postorder = p.tokens ∧ (∀ t ∈ p.tokens, ¬t.Unreadable) ∧
        e.evaluate.1 = .ok value := by
  constructor
  · intro h
    rcases answer_cases p r with ⟨value', hreach, -⟩ | ⟨_, -, -, hanswer⟩ |
      ⟨_, _, _, _, _, -, -, -, hanswer⟩
    · obtain ⟨e, hkind, hlist⟩ := hreach.exists_tree
      exact ⟨e, hkind, hlist, hreach.unfailing.1, (answer_of_postorder hkind hlist r).symm.trans h⟩
    · rw [hanswer] at h
      cases h
    · rw [hanswer] at h
      cases h
  · rintro ⟨e, hkind, hlist, -, hvalue⟩
    rw [answer_of_postorder hkind hlist r, hvalue]

/-- A sequence is malformed at the first token that cannot be executed, or at its end if it leaves
another number of values than one. -/
theorem answer_eq_malformedPostfix_iff (p : Postfix) (r : Recorder) (q : Position) :
    (p.execute r).value.answer = .error (.malformedPostfix q) ↔
      (∃ front t rest stack, p.tokens = front ++ t :: rest ∧ Reaches front stack ∧
        (t.Unreadable ∨ ¬Supplied t stack) ∧ t.position = q) ∨
      ((∃ stack, Reaches p.tokens stack ∧ stack.length ≠ 1) ∧ p.lastPosition = q) := by
  constructor
  · intro h
    rcases answer_cases p r with ⟨_, -, hanswer⟩ | ⟨stack, hreach, hlength, hanswer⟩ |
      ⟨front, t, rest, stack, err, hsplit, hreach, herror, hanswer⟩
    · rw [hanswer] at h
      cases h
    · rw [hanswer] at h
      cases h
      exact .inr ⟨⟨stack, hreach, hlength⟩, rfl⟩
    · rw [hanswer] at h
      cases h
      exact .inl ⟨front, t, rest, stack, hsplit, hreach, effect_eq_malformed_iff.mp herror⟩
  · rintro (⟨front, t, rest, stack, hsplit, hreach, hstuck⟩ | ⟨⟨stack, hreach, hlength⟩, rfl⟩)
    · exact answer_of_reaches_error hsplit hreach (effect_eq_malformed_iff.mpr hstuck) r
    · exact answer_of_leftover hreach hlength r

/-- A divisor of zero that is met ends the execution. -/
theorem answer_of_zeroDivisor {front rest : List Token} (hsplit : p.tokens = front ++ t :: rest)
    (hreach : Reaches front stack) (hsupplied : Supplied t stack) (hzero : ZeroDivisor t stack)
    (r : Recorder) : (p.execute r).value.answer = .error (refusal t) :=
  answer_of_reaches_error hsplit hreach
    ((effect_eq_error_iff hsupplied).mpr (.inr ⟨hzero, rfl⟩)) r

/-- A sequence that is no listing is malformed if it does not meet a divisor of zero first. -/
theorem answer_of_no_listing (hnone : ∀ e : Tree, e.WellKinded → e.postorder ≠ p.tokens)
    (r : Recorder) :
    (∃ q, (p.execute r).value.answer = .error (.malformedPostfix q)) ∨
      ∃ front op rest stack, p.tokens = front ++ op :: rest ∧ Reaches front stack ∧
        Supplied op stack ∧ ZeroDivisor op stack ∧
          (p.execute r).value.answer = .error (refusal op) := by
  rcases answer_cases p r with ⟨value, hreach, -⟩ | ⟨_, -, -, hanswer⟩ |
    ⟨front, t, rest, stack, err, hsplit, hreach, herror, hanswer⟩
  · obtain ⟨e, hkind, hlist⟩ := hreach.exists_tree
    exact absurd hlist (hnone e hkind)
  · exact .inl ⟨_, hanswer⟩
  · by_cases hsupplied : Supplied t stack
    · rcases (effect_eq_error_iff hsupplied).mp herror with ⟨-, rfl⟩ | ⟨hzero, rfl⟩
      · exact .inl ⟨_, hanswer⟩
      · exact .inr ⟨front, t, rest, stack, hsplit, hreach, hsupplied, hzero, hanswer⟩
    · rw [effect_of_not_supplied hsupplied] at herror
      cases herror
      exact .inl ⟨_, hanswer⟩

end Answers

/-- An execution gives a value for the listings of trees that have one, and it is that value; a
sequence lists one tree at most. Any other sequence has an error. It is malformed, unless a divisor
of zero is met before that shows, which then ends the execution. A sequence is malformed at the
first token that cannot be executed, or, where all are executed and leave another number of values
than one, at its last token, or at the start of the text if it has none. -/
theorem execute_computes_listings (p : Postfix) (r : Recorder) :
    p.executeAlone.value.map Execution.value = (p.execute r).value.answer ∧
      (∀ value, (p.execute r).value.answer = .ok value ↔
        ∃ e : Tree, e.WellKinded ∧ e.postorder = p.tokens ∧ (∀ t ∈ p.tokens, ¬t.Unreadable) ∧
          e.evaluate.1 = .ok value) ∧
      (∀ e e' : Tree, e.WellKinded → e'.WellKinded → e.postorder = p.tokens →
        e'.postorder = p.tokens → e = e') ∧
      ((∀ e : Tree, e.WellKinded → e.postorder ≠ p.tokens) →
        (∃ q, (p.execute r).value.answer = .error (.malformedPostfix q)) ∨
          ∃ front op rest stack, p.tokens = front ++ op :: rest ∧ Reaches front stack ∧
            Supplied op stack ∧ ZeroDivisor op stack ∧
              (p.execute r).value.answer = .error (refusal op)) ∧
      (∀ front op rest stack, p.tokens = front ++ op :: rest → Reaches front stack →
        Supplied op stack → ZeroDivisor op stack →
          (p.execute r).value.answer = .error (refusal op)) ∧
      ∀ q, (p.execute r).value.answer = .error (.malformedPostfix q) ↔
        (∃ front t rest stack, p.tokens = front ++ t :: rest ∧ Reaches front stack ∧
          (t.Unreadable ∨ ¬Supplied t stack) ∧ t.position = q) ∨
        ((∃ stack, Reaches p.tokens stack ∧ stack.length ≠ 1) ∧
          (p.tokens.getLast?.map Token.position).getD ⟨1, 1⟩ = q) := by
  refine ⟨p.map_value_executeAlone r, answer_eq_ok_iff p r, ?_,
    fun hnone => answer_of_no_listing hnone r, ?_, answer_eq_malformedPostfix_iff p r⟩
  · intro e e' h h' hlist hlist'
    exact Tree.eq_of_postorder_eq h h' (hlist.trans hlist'.symm)
  · intro front op rest stack hsplit hreach hsupplied hzero
    exact answer_of_zeroDivisor hsplit hreach hsupplied hzero r

/-- `4 + (` is rearranged into `4 ( +`, where the brace cannot be executed; `4 3 -` lists a tree. -/
theorem execute_openSum_difference :
    let four : Token := ⟨.number, "4", ⟨1, 1⟩⟩
    let three : Token := ⟨.number, "3", ⟨5, 1⟩⟩
    let minus : Token := ⟨.sub, "-", ⟨3, 1⟩⟩
    let openSum := arrange [four, ⟨.add, "+", ⟨3, 1⟩⟩, ⟨.openBrace, "(", ⟨5, 1⟩⟩]
    let difference : Postfix := ⟨[four, three, minus]⟩
    openSum.render = "4 ( +" ∧
      (∀ r, (openSum.execute r).value.answer = .error (.malformedPostfix ⟨5, 1⟩)) ∧
      ∀ r, (difference.execute r).value.answer =
        .ok (Number.ofLiteral "4" - Number.ofLiteral "3") := by
  intro four three minus openSum difference
  have hfour : Number.read? "4" = some (Number.ofLiteral "4") :=
    Number.read?_literal (k := .number) rfl ⟨by decide, by simp⟩
  have hthree : Number.read? "3" = some (Number.ofLiteral "3") :=
    Number.read?_literal (k := .number) rfl ⟨by decide, by simp⟩
  refine ⟨rfl, fun r => ?_, fun r => ?_⟩
  · obtain ⟨-, -, -, -, -, hmalformed⟩ := execute_computes_listings openSum r
    have hpush : effect [] four = .ok [Number.ofLiteral "4"] := by
      rw [effect_operand rfl, operand, hfour]
      rfl
    have hreach : Reaches [four] [Number.ofLiteral "4"] := by
      rw [Reaches, foldlM_of_ok hpush]
      rfl
    refine (hmalformed ⟨5, 1⟩).mpr (.inl ⟨[four], _, _, _, rfl, hreach, .inr ?_, rfl⟩)
    simp [Supplied, Kind.isOperand, Kind.arity]
  · obtain ⟨-, hvalue, -⟩ := execute_computes_listings difference r
    refine (hvalue _).mpr ⟨.operation minus (.literal four) (.literal three), ?_, rfl, ?_, ?_⟩
    · exact ⟨rfl, rfl, rfl⟩
    · simp [difference, Token.Unreadable, four, three, minus, hfour, hthree, Kind.isOperand]
    · simp only [Tree.evaluate, operand, four, three, hfour, hthree]
      rfl

end Postfix

end Calculator
