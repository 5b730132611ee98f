import Calculator.Proofs.Heights
import Calculator.Proofs.Yards
import Calculator.Token.Matching

/-!
What a rearrangement keeps, of any tokens. Operands are put out in order, operators come out sooner
or later, and the open groups on the stack are those that nothing has closed yet, the latest first.
So what comes out is a rearrangement of the operands, the operators and the beginnings of groups
that nothing closes; and since these cannot be executed, tokens that leave a group open have no
value.
-/
namespace Calculator

def Kind.isKept (k : Kind) : Bool := k.isOperand || k.isOperator

theorem Kind.ne_of_isKept {k : Kind} (h : k.isKept = true) :
    k ≠ .openBrace ∧ k ≠ .closeBrace ∧ k ≠ .whitespace := by
  revert h
  cases k <;> decide

theorem Kind.isKept_of_isOperand {k : Kind} (h : k.isOperand = true) : k.isKept = true := by
  rw [isKept, h, Bool.true_or]

theorem Kind.isKept_of_isOperator {k : Kind} (h : k.isOperator = true) : k.isKept = true := by
  rw [isKept, h, Bool.or_true]

namespace Token

def beginnings (ts : List Token) : List Token := ts.filter fun t => t.kind = .openBrace

def kept (ts : List Token) : List Token := ts.filter fun t => t.kind.isKept

def operands (ts : List Token) : List Token := ts.filter fun t => t.kind.isOperand

section Filters

variable {t : Token}

theorem kept_append (front rest : List Token) : kept (front ++ rest) = kept front ++ kept rest :=
  List.filter_append ..

theorem kept_cons (ht : t.kind.isKept = true) (rest : List Token) :
    kept (t :: rest) = t :: kept rest := List.filter_cons_of_pos ht

theorem kept_cons_of_not (ht : t.kind.isKept = false) (rest : List Token) :
    kept (t :: rest) = kept rest := List.filter_cons_of_neg (by simp [ht])

theorem operands_append (front rest : List Token) :
    operands (front ++ rest) = operands front ++ operands rest := List.filter_append ..

theorem operands_eq_nil {ts : List Token} (h : ∀ u ∈ ts, u.kind.isOperand = false) :
    operands ts = [] := List.filter_eq_nil_iff.mpr fun u hu => by simp [h u hu]

end Filters

end Token

namespace Yard

open Token

section Groups

theorem beginnings_append_of_none {moved : List Token} (h : ∀ u ∈ moved, u.kind ≠ .openBrace)
    (below : List Token) : beginnings (moved ++ below) = beginnings below := by
  have hnone : beginnings moved = [] :=
    List.filter_eq_nil_iff.mpr fun u hu => by simpa using h u hu
  rw [beginnings, List.filter_append]
  exact congrArg (· ++ beginnings below) hnone

/-- What a token does to the open groups that wait. -/
theorem beginnings_feed (t : Token) (y : Yard) :
    beginnings (y.feed t).waiting =
      if t.kind = .openBrace then t :: beginnings y.waiting
      else if t.kind = .closeBrace then (beginnings y.waiting).tail
      else beginnings y.waiting := by
  obtain ⟨moved, below, hsplit, hmoved, hcases⟩ := feed_cases t y
  have hbelow := beginnings_append_of_none hmoved below
  rw [← hsplit] at hbelow
  rcases hcases with ⟨ht, hfeed⟩ | ⟨ht, hfeed⟩ | ⟨ht, hfeed⟩ | ⟨ht, hhead, hfeed⟩ | ⟨ht, hfeed⟩
  · obtain ⟨hopen, hclose, -⟩ := Kind.ne_of_isKept (Kind.isKept_of_isOperand ht)
    rw [hfeed, if_neg hopen, if_neg hclose]
  · obtain ⟨hopen, hclose, -⟩ := Kind.ne_of_isKept (Kind.isKept_of_isOperator ht)
    rw [hfeed, if_neg hopen, if_neg hclose, hbelow]
    simp [beginnings, hopen]
  · rw [hfeed, if_pos ht]
    simp [beginnings, ht]
  · rw [hfeed, if_neg (by rw [ht]; decide), if_pos ht, hbelow]
    cases below with
    | nil => rfl
    | cons opening below => simp [beginnings, hhead opening rfl]
  · rw [hfeed, if_neg (by rw [ht]; decide), if_neg (by rw [ht]; decide)]

/-- The open groups behind tokens are those of them that nothing closes, and below these the ones
that were open before and have not been closed. -/
theorem beginnings_foldl_feed (ts : List Token) (y : Yard) :
    beginnings (ts.foldl feed y).waiting =
      (unclosed ts).reverse ++ (beginnings y.waiting).drop (strays ts) := by
  induction ts generalizing y with
  | nil => rfl
  | cons t ts ih =>
    rw [List.foldl_cons, ih, beginnings_feed, unclosed]
    by_cases hopen : t.kind = .openBrace
    · rw [if_pos hopen, strays_open hopen]
      by_cases hcloses : Closes ts
      · obtain ⟨count, hcount⟩ := Nat.exists_eq_succ_of_ne_zero
          (Nat.ne_of_gt ((closes_iff ts).mp hcloses))
        rw [if_neg fun h => h.2 hcloses, hcount]
        rfl
      · have hnone : strays ts = 0 := by
          have hcount := (closes_iff ts).not.mp hcloses
          omega
        rw [if_pos ⟨hopen, hcloses⟩, hnone, List.reverse_cons, List.append_assoc]
        rfl
    · rw [if_neg hopen, if_neg (fun h : t.kind = .openBrace ∧ ¬Closes ts => hopen h.1)]
      by_cases hclose : t.kind = .closeBrace
      · rw [if_pos hclose, strays_close hclose, List.drop_tail]
      · rw [if_neg hclose, strays_other hopen hclose]

end Groups

/-- What has been put out and what waits, when these tokens have been taken in. -/
structure Keeps (seen : List Token) (y : Yard) : Prop where
  output_kept : ∀ t ∈ y.output.toList, t.kind.isKept = true
  waiting_kind : ∀ t ∈ y.waiting, t.kind.isOperator = true ∨ t.kind = .openBrace
  operands_eq : operands y.output.toList = operands seen
  kept_perm : (kept y.drain).Perm (kept seen)

theorem keeps_empty : Keeps [] empty where
  output_kept := nofun
  waiting_kind := nofun
  operands_eq := rfl
  kept_perm := .nil

variable {seen : List Token} {y : Yard} {t : Token}

/-- A token that is kept may be put anywhere into what comes out. -/
theorem kept_perm_insert {front rest : List Token} (ht : t.kind.isKept = true)
    (h : (kept (front ++ rest)).Perm (kept seen)) :
    (kept (front ++ t :: rest)).Perm (kept (seen ++ [t])) := by
  rw [kept_append, kept_cons ht, kept_append, kept_cons ht]
  rw [kept_append] at h
  exact List.perm_middle.trans ((h.cons t).trans (List.perm_append_singleton t _).symm)

/-- Taking in a token that is not kept leaves what is kept as it was. -/
theorem Keeps.of_passed (h : Keeps seen y) {next : Yard} (ht : t.kind.isKept = false)
    (houtput : ∀ u ∈ next.output.toList, u.kind.isKept = true)
    (hwaiting : ∀ u ∈ next.waiting, u.kind.isOperator = true ∨ u.kind = .openBrace)
    (hoperands : operands next.output.toList = operands y.output.toList)
    (hkept : kept next.drain = kept y.drain) : Keeps (seen ++ [t]) next := by
  have hoperand : operands [t] = [] := by
    refine operands_eq_nil fun u hu => ?_
    rw [List.mem_singleton.mp hu]
    rw [Kind.isKept, Bool.or_eq_false_iff] at ht
    exact ht.1
  have hnone : kept [t] = [] := kept_cons_of_not ht []
  refine ⟨houtput, hwaiting, ?_, ?_⟩
  · rw [hoperands, h.operands_eq, operands_append, hoperand, List.append_nil]
  · rw [hkept, kept_append, hnone, List.append_nil]
    exact h.kept_perm

theorem Keeps.feed_operand (h : Keeps seen y) (ht : t.kind.isOperand = true) :
    Keeps (seen ++ [t]) ⟨y.output.push t, y.waiting⟩ := by
  have hkept : t.kind.isKept = true := Kind.isKept_of_isOperand ht
  refine ⟨?_, h.waiting_kind, ?_, ?_⟩
  · intro u hu
    rw [Array.toList_push] at hu
    rcases List.mem_append.mp hu with hu | hu
    · exact h.output_kept u hu
    · rw [List.mem_singleton.mp hu]
      exact hkept
  · rw [Array.toList_push, operands_append, operands_append, h.operands_eq]
  · have hdrain : drain ⟨y.output.push t, y.waiting⟩ = y.output.toList ++ t :: y.waiting := by
      simp [drain]
    rw [hdrain]
    exact kept_perm_insert hkept h.kept_perm

section Moves

variable {moved below : List Token}

/-- What is moved from the stack, if no open group is among it, may be moved. -/
theorem Keeps.emit (h : Keeps seen y) (hsplit : y.waiting = moved ++ below)
    (hmoved : ∀ u ∈ moved, u.kind ≠ .openBrace) : Keeps seen ⟨emit y.output moved, below⟩ := by
  have hoperators : ∀ u ∈ moved, u.kind.isOperator = true := by
    intro u hu
    have hmem : u ∈ y.waiting := hsplit ▸ List.mem_append_left below hu
    exact (h.waiting_kind u hmem).resolve_right (hmoved u hu)
  have hnone : operands moved = [] :=
    operands_eq_nil fun u hu => Kind.isOperand_of_isOperator (hoperators u hu)
  refine ⟨?_, ?_, ?_, ?_⟩
  · intro u hu
    rw [toList_emit] at hu
    rcases List.mem_append.mp hu with hu | hu
    · exact h.output_kept u hu
    · exact Kind.isKept_of_isOperator (hoperators u hu)
  · intro u hu
    exact h.waiting_kind u (hsplit ▸ List.mem_append_right moved hu)
  · rw [toList_emit, operands_append, hnone, List.append_nil]
    exact h.operands_eq
  · have hdrain : drain ⟨Yard.emit y.output moved, below⟩ = y.drain := by
      rw [drain, drain, toList_emit, hsplit, List.append_assoc]
    rw [hdrain]
    exact h.kept_perm

end Moves

theorem Keeps.push_operator (h : Keeps seen y) (ht : t.kind.isOperator = true) :
    Keeps (seen ++ [t]) ⟨y.output, t :: y.waiting⟩ := by
  have hnone : operands [t] = [] := by
    refine operands_eq_nil fun u hu => ?_
    rw [List.mem_singleton.mp hu]
    exact Kind.isOperand_of_isOperator ht
  refine ⟨h.output_kept, List.forall_mem_cons.mpr ⟨.inl ht, h.waiting_kind⟩, ?_, ?_⟩
  · rw [operands_append, hnone, List.append_nil]
    exact h.operands_eq
  · exact kept_perm_insert (Kind.isKept_of_isOperator ht) h.kept_perm

/-- One token more. -/
theorem Keeps.feed (h : Keeps seen y) (t : Token) : Keeps (seen ++ [t]) (y.feed t) := by
  obtain ⟨moved, below, hsplit, hmoved, hcases⟩ := feed_cases t y
  have hemit := h.emit hsplit hmoved
  rcases hcases with ⟨ht, hfeed⟩ | ⟨ht, hfeed⟩ | ⟨ht, hfeed⟩ | ⟨ht, hhead, hfeed⟩ | ⟨ht, hfeed⟩
  · rw [hfeed]
    exact h.feed_operand ht
  · rw [hfeed]
    exact hemit.push_operator ht
  · have hnot : t.kind.isKept = false := by rw [ht]; rfl
    rw [hfeed]
    refine h.of_passed hnot h.output_kept ?_ rfl ?_
    · exact List.forall_mem_cons.mpr ⟨.inr ht, h.waiting_kind⟩
    · rw [drain, kept_append, kept_cons_of_not hnot, ← kept_append]
      rfl
  · have hnot : t.kind.isKept = false := by rw [ht]; rfl
    rw [hfeed]
    refine hemit.of_passed hnot hemit.output_kept ?_ rfl ?_
    · intro u hu
      exact hemit.waiting_kind u (List.mem_of_mem_tail hu)
    · cases below with
      | nil => rfl
      | cons opening below =>
        have hopening : opening.kind.isKept = false := by rw [hhead opening rfl]; rfl
        rw [drain, drain, kept_append, kept_append, kept_cons_of_not hopening]
        rfl
  · have hnot : t.kind.isKept = false := by rw [ht]; rfl
    rw [hfeed]
    exact h.of_passed hnot h.output_kept h.waiting_kind rfl rfl

/-- By induction on the tokens. -/
theorem Keeps.foldl_feed (h : Keeps seen y) (ts : List Token) :
    Keeps (seen ++ ts) (ts.foldl Yard.feed y) := by
  induction ts generalizing seen y with
  | nil =>
    rw [List.append_nil]
    exact h
  | cons t ts ih =>
    have hrest := ih (h.feed t)
    rwa [List.append_assoc] at hrest

section Drained

/-- Everything that comes out is kept or begins a group. -/
theorem Keeps.mem_drain (h : Keeps seen y) (ht : t ∈ y.drain) :
    t.kind.isKept = true ∨ t.kind = .openBrace := by
  rcases List.mem_append.mp ht with ht | ht
  · exact .inl (h.output_kept t ht)
  · exact (h.waiting_kind t ht).imp_left Kind.isKept_of_isOperator

theorem Keeps.operand_notMem_waiting (h : Keeps seen y) :
    ∀ t ∈ y.waiting, t.kind.isOperand = false := by
  intro t ht
  rcases h.waiting_kind t ht with hoperator | hopen
  · exact Kind.isOperand_of_isOperator hoperator
  · rw [hopen]
    rfl

theorem Keeps.operands_drain (h : Keeps seen y) : operands y.drain = operands seen := by
  rw [drain, operands_append, operands_eq_nil h.operand_notMem_waiting, List.append_nil]
  exact h.operands_eq

theorem Keeps.beginnings_drain (h : Keeps seen y) : beginnings y.drain = beginnings y.waiting :=
  beginnings_append_of_none (fun u hu => (Kind.ne_of_isKept (h.output_kept u hu)).1) y.waiting

/-- What comes out is what is kept and what begins a group. -/
theorem Keeps.drain_perm (h : Keeps seen y) :
    y.drain.Perm (kept seen ++ beginnings y.waiting) := by
  have hrest : (y.drain.filter fun t => !t.kind.isKept) = beginnings y.drain := by
    refine List.filter_congr fun t ht => ?_
    rcases h.mem_drain ht with hkept | hopen
    · simp [hkept, (Kind.ne_of_isKept hkept).1]
    · rw [hopen]
      rfl
  have hparts := (List.filter_append_perm (fun t : Token => t.kind.isKept) y.drain).symm
  rw [hrest, h.beginnings_drain] at hparts
  exact hparts.trans (h.kept_perm.append_right _)

end Drained

end Yard

namespace Postfix

open Token

/-- What an execution that ends with a value has executed. -/
theorem isKept_of_answer {p : Postfix} {r : Recorder} {value : Float}
    (h : (p.execute r).value.answer = .ok value) : ∀ t ∈ p.tokens, t.kind.isKept = true := by
  intro t ht
  obtain ⟨front, rest, hsplit⟩ := List.append_of_mem ht
  rw [answer_execute_eq] at h
  cases hrun : p.tokens.foldlM effect [] with
  | error err =>
    rw [hrun] at h
    cases h
  | ok stack =>
    rw [hsplit] at hrun
    obtain ⟨before, after, -, hstep⟩ := Reaches.executed hrun
    rcases supplied_of_effect hstep with hoperand | ⟨hunary, -⟩ | ⟨hbinary, -⟩
    · exact Kind.isKept_of_isOperand hoperand
    · exact Kind.isKept_of_isOperator (by rw [Kind.isOperator, hunary]; rfl)
    · exact Kind.isKept_of_isOperator (Kind.isOperator_of_binary hbinary)

/-- The rearrangement at its end: it has kept its tokens, and the open groups that wait are those
that nothing closes. -/
theorem exists_keeps (ts : List Token) :
    ∃ y : Yard, y.Keeps ts ∧ beginnings y.waiting = (unclosed ts).reverse ∧
      (arrange ts).tokens = y.drain := by
  refine ⟨ts.foldl Yard.feed .empty, Yard.keeps_empty.foldl_feed ts, ?_, tokens_arrange ts⟩
  have hnone : beginnings Yard.empty.waiting = [] := rfl
  rw [Yard.beginnings_foldl_feed, hnone, List.drop_nil, List.append_nil]

/-- A group that is left open comes out, and it cannot be executed. -/
theorem answer_of_unclosed {ts : List Token} (h : unclosed ts ≠ []) (r : Recorder)
    (value : Float) : ((arrange ts).execute r).value.answer ≠ .ok value := by
  intro hanswer
  obtain ⟨y, -, hgroups, htokens⟩ := exists_keeps ts
  obtain ⟨opening, hmem⟩ := List.exists_mem_of_ne_nil _ h
  have hbegins : opening ∈ beginnings y.waiting := by
    rw [hgroups]
    exact List.mem_reverse.mpr hmem
  obtain ⟨hwaits, hkind⟩ := List.mem_filter.mp hbegins
  have hout : opening ∈ (arrange ts).tokens := by
    rw [htokens]
    exact List.mem_append_right _ hwaits
  exact (Kind.ne_of_isKept (isKept_of_answer hanswer opening hout)).1 (by simpa using hkind)

/-- A rearrangement loses nothing and adds nothing, whatever the tokens are. What comes out are the
operands, the operators and the beginnings of groups that nothing closes, each as often as it went
in. The operands keep their order; the beginnings of groups come behind all of them, the latest
first; and ends of groups and whitespace do not come out. So tokens that leave a group open have no
value. -/
theorem arrange_conserves (ts : List Token) :
    (arrange ts).tokens.Perm
        ((ts.filter fun t => t.kind.isOperand || t.kind.isOperator) ++ unclosed ts) ∧
      ((arrange ts).tokens.filter fun t => t.kind.isOperand) =
        (ts.filter fun t => t.kind.isOperand) ∧
      ((arrange ts).tokens.filter fun t => t.kind = .openBrace) = (unclosed ts).reverse ∧
      (∃ front rest, (arrange ts).tokens = front ++ rest ∧ (∀ t ∈ front, t.kind ≠ .openBrace) ∧
        ∀ t ∈ rest, t.kind.isOperand = false) ∧
      (∀ t ∈ (arrange ts).tokens, t.kind ≠ .closeBrace ∧ t.kind ≠ .whitespace) ∧
      (unclosed ts ≠ [] →
        (∀ r value, ((arrange ts).execute r).value.answer ≠ .ok value) ∧
          ∀ x, (arrange ts).executeAlone.value ≠ .ok x) := by
  obtain ⟨y, hkeeps, hgroups, htokens⟩ := exists_keeps ts
  rw [htokens]
  refine ⟨?_, hkeeps.operands_drain, hkeeps.beginnings_drain.trans hgroups,
    ⟨y.output.toList, y.waiting, rfl, ?_, hkeeps.operand_notMem_waiting⟩, ?_, ?_⟩
  · have hperm := hkeeps.drain_perm
    rw [hgroups] at hperm
    exact hperm.trans ((List.reverse_perm _).append_left _)
  · exact fun t ht => (Kind.ne_of_isKept (hkeeps.output_kept t ht)).1
  · intro t ht
    rcases hkeeps.mem_drain ht with hkept | hopen
    · exact (Kind.ne_of_isKept hkept).2
    · rw [hopen]
      decide
  · intro hopen
    refine ⟨answer_of_unclosed hopen, fun x hx => ?_⟩
    have hanswer := (arrange ts).map_value_executeAlone (.new false)
    rw [hx] at hanswer
    exact answer_of_unclosed hopen _ _ hanswer.symm

/-- The tokens of `)(2*((3)`: the first brace ends no group, and two groups are left open. -/
def unevenBraces : List Token :=
  [⟨.closeBrace, ")", ⟨1, 1⟩⟩, ⟨.openBrace, "(", ⟨2, 1⟩⟩, ⟨.number, "2", ⟨3, 1⟩⟩,
    ⟨.mul, "*", ⟨4, 1⟩⟩, ⟨.openBrace, "(", ⟨5, 1⟩⟩, ⟨.openBrace, "(", ⟨6, 1⟩⟩,
    ⟨.number, "3", ⟨7, 1⟩⟩, ⟨.closeBrace, ")", ⟨8, 1⟩⟩]

/-- The brace in front and the group around `3` are gone, and the two open groups come out from the
latest to the first. -/
theorem arrange_unevenBraces :
    unclosed unevenBraces = [⟨.openBrace, "(", ⟨2, 1⟩⟩, ⟨.openBrace, "(", ⟨5, 1⟩⟩] ∧
      (arrange unevenBraces).tokens.Perm
        [⟨.number, "2", ⟨3, 1⟩⟩, ⟨.mul, "*", ⟨4, 1⟩⟩, ⟨.number, "3", ⟨7, 1⟩⟩,
          ⟨.openBrace, "(", ⟨2, 1⟩⟩, ⟨.openBrace, "(", ⟨5, 1⟩⟩] ∧
      ((arrange unevenBraces).tokens.filter fun t => t.kind = .openBrace) =
        [⟨.openBrace, "(", ⟨5, 1⟩⟩, ⟨.openBrace, "(", ⟨2, 1⟩⟩] ∧
      ∀ r value, ((arrange unevenBraces).execute r).value.answer ≠ .ok value := by
  have hunclosed : unclosed unevenBraces =
      [⟨.openBrace, "(", ⟨2, 1⟩⟩, ⟨.openBrace, "(", ⟨5, 1⟩⟩] := by decide
  obtain ⟨hperm, -, hgroups, -, -, hopen⟩ := arrange_conserves unevenBraces
  rw [hunclosed] at hperm hgroups hopen
  exact ⟨hunclosed, hperm, hgroups, (hopen (List.cons_ne_nil _ _)).1⟩

end Postfix

end Calculator
