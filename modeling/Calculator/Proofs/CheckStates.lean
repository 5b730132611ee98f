import Calculator.Grammar

/-!
The states that a check can come to. In each of them either an operand has to come next or one has
just been completed, and the set of expected kinds follows from that and from the number of open
groups. So the table of neighbours has only two rows, and what a token does to a state is said once
for each row.
-/
namespace Calculator.Grammar

namespace State

/-- An operand has to come next, inside `depth` open groups. -/
def Awaits (s : State) (depth : Nat) : Prop :=
  s.expected = .operandStart ∧ s.depth = depth

/-- An operand has just been completed, inside `depth` open groups. -/
def Follows (s : State) (depth : Nat) : Prop :=
  s.expected = Kind.number.successors depth ∧ s.depth = depth

end State

/-- The kinds that can begin an operand. -/
theorem mem_operandStart_iff (k : Kind) :
    k ∈ KindSet.operandStart ↔ k.isOperand = true ∨ k = .neg ∨ k = .openBrace := by
  cases k <;> decide

/-- Behind an operand stands a binary operator, or the end of a group that is open. -/
theorem mem_successors_number_iff (k : Kind) (depth : Nat) :
    k ∈ Kind.number.successors depth ↔
      k.arity = some .binary ∨ (k = .closeBrace ∧ 0 < depth) := by
  unfold Kind.successors
  by_cases hdepth : 0 < depth
  · simp only [hdepth, if_true, and_true]
    cases k <;> decide
  · simp only [hdepth, if_false, and_false, or_false]
    cases k <;> decide

/-- What an operand leaves behind does not depend on how it ends. -/
theorem successors_operand_end {k : Kind} (hk : k.isOperand = true ∨ k = .closeBrace)
    (depth : Nat) : k.successors depth = Kind.number.successors depth := by
  cases k <;> first | rfl | simp [Kind.isOperand] at hk

theorem successors_operator {k : Kind} (hk : k.isOperator = true) (depth : Nat) :
    k.successors depth = .operandStart := by
  cases k <;> first | rfl | simp [Kind.isOperator, Kind.arity] at hk

theorem depthAfter_of_isOperand {k : Kind} (hk : k.isOperand = true) (depth : Nat) :
    k.depthAfter depth = depth := by
  cases k <;> first | rfl | cases hk

theorem depthAfter_of_isOperator {k : Kind} (hk : k.isOperator = true) (depth : Nat) :
    k.depthAfter depth = depth := by
  cases k <;> first | rfl | cases hk

namespace State

variable {s s' : State} {t : Token} {depth : Nat}

/-- A step succeeds exactly on an expected kind. -/
theorem step_eq_ok_iff : s.step t = .ok s' ↔ t.kind ∈ s.expected ∧ s.after t = s' := by
  unfold step
  by_cases hmem : t.kind ∈ s.expected
  · simp [hmem]
  · simp [hmem]

theorem step_eq_error_iff {e : SyntaxError} :
    s.step t = .error e ↔
      t.kind ∉ s.expected ∧ e = .unexpectedToken t.kind s.expected t.position := by
  unfold step
  by_cases hmem : t.kind ∈ s.expected
  · simp [hmem]
  · simp [hmem, eq_comm]

theorem awaits_initial : initial.Awaits 0 := ⟨rfl, rfl⟩

theorem follows_after_operand (hdepth : s.depth = depth) (ht : t.kind.isOperand = true) :
    (s.after t).Follows depth := by
  have hsame : t.kind.depthAfter s.depth = depth := by
    rw [hdepth]
    exact depthAfter_of_isOperand ht depth
  refine ⟨?_, hsame⟩
  change t.kind.successors (t.kind.depthAfter s.depth) = _
  rw [hsame]
  exact successors_operand_end (Or.inl ht) depth

theorem awaits_after_operator (hdepth : s.depth = depth) (ht : t.kind.isOperator = true) :
    (s.after t).Awaits depth := by
  refine ⟨successors_operator ht _, ?_⟩
  change t.kind.depthAfter s.depth = depth
  rw [hdepth]
  exact depthAfter_of_isOperator ht depth

theorem awaits_after_open (hdepth : s.depth = depth) (ht : t.kind = .openBrace) :
    (s.after t).Awaits (depth + 1) := by
  constructor
  · simp only [after, ht]
    rfl
  · simp only [after, ht, hdepth]
    rfl

theorem follows_after_close (hdepth : s.depth = depth + 1) (ht : t.kind = .closeBrace) :
    (s.after t).Follows depth := by
  have hless : t.kind.depthAfter s.depth = depth := by
    rw [ht, hdepth]
    rfl
  refine ⟨?_, hless⟩
  change t.kind.successors (t.kind.depthAfter s.depth) = _
  rw [hless]
  exact successors_operand_end (Or.inr ht) depth

/-- Where an operand has to come next, a step begins one. -/
theorem Awaits.step_cases (hs : s.Awaits depth) (h : s.step t = .ok s') :
    (t.kind.isOperand = true ∧ s'.Follows depth) ∨ (t.kind = .neg ∧ s'.Awaits depth) ∨
      (t.kind = .openBrace ∧ s'.Awaits (depth + 1)) := by
  obtain ⟨hmem, rfl⟩ := step_eq_ok_iff.mp h
  rw [hs.1, mem_operandStart_iff] at hmem
  rcases hmem with hoperand | hneg | hopen
  · exact Or.inl ⟨hoperand, follows_after_operand hs.2 hoperand⟩
  · exact Or.inr (Or.inl ⟨hneg, awaits_after_operator hs.2 (by rw [hneg]; rfl)⟩)
  · exact Or.inr (Or.inr ⟨hopen, awaits_after_open hs.2 hopen⟩)

/-- Behind an operand, a step goes on to the next operand or out of a group. -/
theorem Follows.step_cases (hs : s.Follows depth) (h : s.step t = .ok s') :
    (t.kind.arity = some .binary ∧ s'.Awaits depth) ∨
      ∃ outer, depth = outer + 1 ∧ t.kind = .closeBrace ∧ s'.Follows outer := by
  obtain ⟨hmem, rfl⟩ := step_eq_ok_iff.mp h
  rw [hs.1, mem_successors_number_iff] at hmem
  rcases hmem with hbinary | ⟨hclose, hpos⟩
  · exact Or.inl ⟨hbinary, awaits_after_operator hs.2 (Kind.isOperator_of_binary hbinary)⟩
  · obtain ⟨outer, rfl⟩ := Nat.exists_eq_succ_of_ne_zero (Nat.ne_of_gt hpos)
    exact Or.inr ⟨outer, rfl, hclose, follows_after_close hs.2 hclose⟩

theorem Awaits.step_operand (hs : s.Awaits depth) (ht : t.kind.isOperand = true) :
    ∃ s', s.step t = .ok s' ∧ s'.Follows depth := by
  refine ⟨s.after t, step_eq_ok_iff.mpr ⟨?_, rfl⟩, follows_after_operand hs.2 ht⟩
  rw [hs.1, mem_operandStart_iff]
  exact Or.inl ht

theorem Awaits.step_neg (hs : s.Awaits depth) (ht : t.kind = .neg) :
    ∃ s', s.step t = .ok s' ∧ s'.Awaits depth := by
  refine ⟨s.after t, step_eq_ok_iff.mpr ⟨?_, rfl⟩,
    awaits_after_operator hs.2 (by rw [ht]; rfl)⟩
  rw [hs.1, mem_operandStart_iff]
  exact Or.inr (Or.inl ht)

theorem Awaits.step_open (hs : s.Awaits depth) (ht : t.kind = .openBrace) :
    ∃ s', s.step t = .ok s' ∧ s'.Awaits (depth + 1) := by
  refine ⟨s.after t, step_eq_ok_iff.mpr ⟨?_, rfl⟩, awaits_after_open hs.2 ht⟩
  rw [hs.1, mem_operandStart_iff]
  exact Or.inr (Or.inr ht)

theorem Follows.step_binary (hs : s.Follows depth) (ht : t.kind.arity = some .binary) :
    ∃ s', s.step t = .ok s' ∧ s'.Awaits depth := by
  refine ⟨s.after t, step_eq_ok_iff.mpr ⟨?_, rfl⟩,
    awaits_after_operator hs.2 (Kind.isOperator_of_binary ht)⟩
  rw [hs.1, mem_successors_number_iff]
  exact Or.inl ht

theorem Follows.step_close (hs : s.Follows (depth + 1)) (ht : t.kind = .closeBrace) :
    ∃ s', s.step t = .ok s' ∧ s'.Follows depth := by
  refine ⟨s.after t, step_eq_ok_iff.mpr ⟨?_, rfl⟩, follows_after_close hs.2 ht⟩
  rw [hs.1, mem_successors_number_iff]
  exact Or.inr ⟨ht, Nat.succ_pos depth⟩

def Settled (s : State) : Prop := ∃ depth, s.Awaits depth ∨ s.Follows depth

theorem settled_initial : initial.Settled := ⟨0, Or.inl awaits_initial⟩

theorem Settled.step (hs : s.Settled) (h : s.step t = .ok s') : s'.Settled := by
  obtain ⟨depth, hs | hs⟩ := hs
  · rcases hs.step_cases h with ⟨-, hnext⟩ | ⟨-, hnext⟩ | ⟨-, hnext⟩
    · exact ⟨depth, Or.inr hnext⟩
    · exact ⟨depth, Or.inl hnext⟩
    · exact ⟨depth + 1, Or.inl hnext⟩
  · rcases hs.step_cases h with ⟨-, hnext⟩ | ⟨outer, -, -, hnext⟩
    · exact ⟨depth, Or.inl hnext⟩
    · exact ⟨outer, Or.inr hnext⟩

/-- A group is closed only where one is open. -/
theorem Settled.depth_pos (hs : s.Settled) (h : s.step t = .ok s') (ht : t.kind = .closeBrace) :
    0 < s.depth := by
  obtain ⟨depth, hs | hs⟩ := hs
  · rcases hs.step_cases h with ⟨hk, -⟩ | ⟨hk, -⟩ | ⟨hk, -⟩ <;>
      simp [ht, Kind.isOperand] at hk
  · rcases hs.step_cases h with ⟨hk, -⟩ | ⟨outer, hdepth, -, -⟩
    · simp [ht, Kind.arity] at hk
    · have := hs.2
      omega

theorem Settled.step_depth (hs : s.Settled) (h : s.step t = .ok s') :
    s'.depth + (if t.kind == .closeBrace then 1 else 0) =
      s.depth + (if t.kind == .openBrace then 1 else 0) := by
  have hpos := hs.depth_pos h
  obtain ⟨-, rfl⟩ := step_eq_ok_iff.mp h
  change t.kind.depthAfter s.depth + _ = _
  cases hk : t.kind <;> simp only [Kind.depthAfter] <;> first | rfl | skip
  have := hpos hk
  simp only [beq_self_eq_true, if_true]
  change s.depth - 1 + 1 = s.depth + 0
  omega

/-- The end of the sequence is refused where an operand has to come next. -/
theorem Awaits.finish_eq (hs : s.Awaits depth) :
    s.finish = .error (.unexpectedEnd .operandStart s.stop) := by
  have hmem : Kind.number ∈ s.expected := by
    rw [hs.1, mem_operandStart_iff]
    exact Or.inl rfl
  rw [finish, if_pos hmem, hs.1]

theorem Awaits.finish_ne_ok (hs : s.Awaits depth) : s.finish ≠ .ok () := by
  rw [hs.finish_eq]
  exact nofun

/-- Behind an operand the sequence may end exactly outside of all groups. -/
theorem Follows.finish_eq_ok_iff (hs : s.Follows depth) : s.finish = .ok () ↔ depth = 0 := by
  have hmem : Kind.number ∉ s.expected := by
    rw [hs.1, mem_successors_number_iff]
    simp [Kind.arity]
  unfold finish
  rw [if_neg hmem, hs.2]
  by_cases hpos : 0 < depth
  · simp [hpos, Nat.ne_of_gt hpos]
  · simp [Nat.eq_zero_of_not_pos hpos]

end State

section Runs

variable {s s' : State} {t : Token} {ts front rest : List Token}

theorem advance_cons_eq_ok_iff :
    advance s (t :: ts) = .ok s' ↔ ∃ next, s.step t = .ok next ∧ advance next ts = .ok s' := by
  rw [advance]
  cases hstep : s.step t with
  | error e => simp
  | ok next => simp

theorem advance_append_eq_ok_iff :
    advance s (front ++ rest) = .ok s' ↔
      ∃ mid, advance s front = .ok mid ∧ advance mid rest = .ok s' := by
  induction front generalizing s with
  | nil => simp [advance]
  | cons t front ih =>
    rw [List.cons_append, advance_cons_eq_ok_iff]
    constructor
    · intro h
      obtain ⟨next, hstep, hrun⟩ := h
      obtain ⟨mid, hfront, hrest⟩ := ih.mp hrun
      exact ⟨mid, advance_cons_eq_ok_iff.mpr ⟨next, hstep, hfront⟩, hrest⟩
    · intro h
      obtain ⟨mid, hfront, hrest⟩ := h
      obtain ⟨next, hstep, hrun⟩ := advance_cons_eq_ok_iff.mp hfront
      exact ⟨next, hstep, ih.mpr ⟨mid, hrun, hrest⟩⟩

theorem State.Settled.advance (hs : s.Settled) (h : Grammar.advance s ts = .ok s') : s'.Settled := by
  induction ts generalizing s with
  | nil =>
    cases h
    exact hs
  | cons t rest ih =>
    obtain ⟨next, hstep, hrun⟩ := advance_cons_eq_ok_iff.mp h
    exact ih (hs.step hstep) hrun

/-- The count of open groups is exact: nothing is lost by counting in natural numbers. -/
theorem State.Settled.advance_depth (hs : s.Settled) (h : Grammar.advance s ts = .ok s') :
    s'.depth + (ts.map Token.kind).count .closeBrace =
      s.depth + (ts.map Token.kind).count .openBrace := by
  induction ts generalizing s with
  | nil =>
    cases h
    rfl
  | cons t rest ih =>
    obtain ⟨next, hstep, hrun⟩ := advance_cons_eq_ok_iff.mp h
    have hrest := ih (hs.step hstep) hrun
    have hone := hs.step_depth hstep
    rw [List.map_cons, List.count_cons, List.count_cons]
    omega

theorem check_eq_ok_iff_finish :
    check ts = .ok () ↔
      ∃ s, advance .initial (Token.significant ts) = .ok s ∧ s.finish = .ok () := by
  unfold check
  cases advance .initial (Token.significant ts) with
  | error e => simp
  | ok s => simp

/-- A run fails at the first token that cannot stand where it does. -/
theorem advance_eq_error_iff {e : SyntaxError} :
    advance s ts = .error e ↔
      ∃ front t rest mid, ts = front ++ t :: rest ∧ advance s front = .ok mid ∧
        mid.step t = .error e := by
  constructor
  · intro h
    induction ts generalizing s with
    | nil => cases h
    | cons t ts ih =>
      rw [advance] at h
      cases hstep : s.step t with
      | error e' =>
        rw [hstep] at h
        cases h
        exact ⟨[], t, ts, s, rfl, rfl, hstep⟩
      | ok next =>
        rw [hstep] at h
        obtain ⟨front, u, rest, mid, rfl, hrun, hfail⟩ := ih h
        exact ⟨t :: front, u, rest, mid, rfl,
          advance_cons_eq_ok_iff.mpr ⟨next, hstep, hrun⟩, hfail⟩
  · intro h
    obtain ⟨front, t, rest, mid, rfl, hrun, hfail⟩ := h
    induction front generalizing s with
    | nil =>
      cases hrun
      rw [List.nil_append, advance, hfail]
    | cons u front ih =>
      obtain ⟨next, hstep, hrest⟩ := advance_cons_eq_ok_iff.mp hrun
      rw [List.cons_append, advance, hstep]
      exact ih hrest

/-- A check reports a token that cannot stand where it does, or an end that comes too early. -/
theorem check_eq_error_iff {e : SyntaxError} :
    check ts = .error e ↔
      (∃ front t rest mid, Token.significant ts = front ++ t :: rest ∧
          advance .initial front = .ok mid ∧ mid.step t = .error e) ∨
        ∃ s, advance .initial (Token.significant ts) = .ok s ∧ s.finish = .error e := by
  rw [← advance_eq_error_iff, check]
  cases advance .initial (Token.significant ts) with
  | error e' => simp
  | ok s => simp

end Runs

end Calculator.Grammar
