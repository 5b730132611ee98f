import Calculator.Grammar.Derivation
import Calculator.Proofs.CheckStates

/-!
The table of neighbours with its count of open groups recognises the grammar of expressions. What
has been read is described from the inside of the innermost open group: any operand in the next
place completes an expression there, and that group in turn is an operand in the place where it
was opened.
-/
namespace Calculator.Grammar

/-- A row of kinds that ends behind an operand, inside `depth` open groups. -/
def Complete : Nat → List Kind → Prop
  | 0, ks => Derives .expression ks
  | depth + 1, ks => ∃ outer inner, ks = outer ++ .openBrace :: inner ∧
      (∀ u, Derives .operand u → Complete depth (outer ++ u)) ∧ Derives .expression inner

def Incomplete (depth : Nat) (ks : List Kind) : Prop :=
  ∀ u, Derives .operand u → Complete depth (ks ++ u)

def Explains (ks : List Kind) (s : State) : Prop :=
  ∃ depth, (s.Awaits depth ∧ Incomplete depth ks) ∨ (s.Follows depth ∧ Complete depth ks)

theorem derives_of_isOperand {k : Kind} (hk : k.isOperand = true) : Derives .operand [k] := by
  cases k
  case number => exact .number
  case decimal => exact .decimal
  all_goals simp [Kind.isOperand] at hk

theorem incomplete_nil : Incomplete 0 [] := fun _ hu => .operand hu

theorem Incomplete.neg {depth : Nat} {ks : List Kind} (h : Incomplete depth ks) :
    Incomplete depth (ks ++ [.neg]) := by
  intro u hu
  rw [List.append_assoc, List.singleton_append]
  exact h _ (.negation hu)

theorem Incomplete.open {depth : Nat} {ks : List Kind} (h : Incomplete depth ks) :
    Incomplete (depth + 1) (ks ++ [.openBrace]) := by
  intro u hu
  exact ⟨ks, u, by rw [List.append_assoc, List.singleton_append], h, .operand hu⟩

theorem Complete.binary {depth : Nat} {ks : List Kind} {k : Kind} (h : Complete depth ks)
    (hk : k.arity = some .binary) : Incomplete depth (ks ++ [k]) := by
  intro u hu
  rw [List.append_assoc, List.singleton_append]
  cases depth with
  | zero => exact .operation h hk hu
  | succ depth =>
    obtain ⟨outer, inner, rfl, houter, hinner⟩ := h
    exact ⟨outer, inner ++ k :: u, by simp, houter, .operation hinner hk hu⟩

/-- Closing a group makes an operand of it, in the place where it was opened. -/
theorem Complete.close {depth : Nat} {ks : List Kind} (h : Complete (depth + 1) ks) :
    Complete depth (ks ++ [.closeBrace]) := by
  obtain ⟨outer, inner, rfl, houter, hinner⟩ := h
  rw [List.append_assoc, List.cons_append]
  exact houter _ (.group hinner)

theorem Explains.step {ks : List Kind} {s s' : State} {t : Token} (h : Explains ks s)
    (hstep : s.step t = .ok s') : Explains (ks ++ [t.kind]) s' := by
  obtain ⟨depth, ⟨hs, hks⟩ | ⟨hs, hks⟩⟩ := h
  · rcases hs.step_cases hstep with ⟨ht, hnext⟩ | ⟨ht, hnext⟩ | ⟨ht, hnext⟩
    · exact ⟨depth, Or.inr ⟨hnext, hks _ (derives_of_isOperand ht)⟩⟩
    · rw [ht]
      exact ⟨depth, Or.inl ⟨hnext, hks.neg⟩⟩
    · rw [ht]
      exact ⟨depth + 1, Or.inl ⟨hnext, hks.open⟩⟩
  · rcases hs.step_cases hstep with ⟨ht, hnext⟩ | ⟨outer, rfl, ht, hnext⟩
    · exact ⟨depth, Or.inl ⟨hnext, hks.binary ht⟩⟩
    · rw [ht]
      exact ⟨outer, Or.inr ⟨hnext, hks.close⟩⟩

theorem Explains.advance {ks : List Kind} {s s' : State} {ts : List Token} (h : Explains ks s)
    (hrun : advance s ts = .ok s') : Explains (ks ++ ts.map Token.kind) s' := by
  induction ts generalizing ks s with
  | nil =>
    cases hrun
    simpa using h
  | cons t rest ih =>
    obtain ⟨next, hstep, hrest⟩ := advance_cons_eq_ok_iff.mp hrun
    simpa using ih (h.step hstep) hrest

theorem explains_initial : Explains [] .initial :=
  ⟨0, Or.inl ⟨State.awaits_initial, incomplete_nil⟩⟩

/-- A sequence that may end where the check has come to is an expression. -/
theorem derives_of_finish {ks : List Kind} {s : State} (h : Explains ks s)
    (hfinish : s.finish = .ok ()) : Derives .expression ks := by
  obtain ⟨depth, ⟨hs, -⟩ | ⟨hs, hks⟩⟩ := h
  · exact absurd hfinish hs.finish_ne_ok
  · rw [hs.finish_eq_ok_iff.mp hfinish] at hks
    exact hks

/-- An expression or an operand is read to its end wherever an operand may come, and leaves the
number of open groups as it was. The induction is on the derivation, at every depth. -/
theorem Derives.advance {c : Category} {ks : List Kind} (h : Derives c ks) {ts : List Token}
    (hts : ts.map Token.kind = ks) {s : State} {depth : Nat} (hs : s.Awaits depth) :
    ∃ s', Grammar.advance s ts = .ok s' ∧ s'.Follows depth := by
  induction h generalizing ts s depth with
  | operand _ ih => exact ih hts hs
  | @operation e u k _ hk _ ihe ihu =>
    obtain ⟨left, tail, rfl, hleft, htail⟩ := List.map_eq_append_iff.mp hts
    obtain ⟨op, right, rfl, rfl, hright⟩ := List.map_eq_cons_iff.mp htail
    obtain ⟨s₁, hrun₁, hs₁⟩ := ihe hleft hs
    obtain ⟨s₂, hstep, hs₂⟩ := hs₁.step_binary hk
    obtain ⟨s₃, hrun₂, hs₃⟩ := ihu hright hs₂
    exact ⟨s₃, advance_append_eq_ok_iff.mpr
      ⟨s₁, hrun₁, advance_cons_eq_ok_iff.mpr ⟨s₂, hstep, hrun₂⟩⟩, hs₃⟩
  | negation _ ih =>
    obtain ⟨op, operand, rfl, hop, hoperand⟩ := List.map_eq_cons_iff.mp hts
    obtain ⟨s₁, hstep, hs₁⟩ := hs.step_neg hop
    obtain ⟨s₂, hrun, hs₂⟩ := ih hoperand hs₁
    exact ⟨s₂, advance_cons_eq_ok_iff.mpr ⟨s₁, hstep, hrun⟩, hs₂⟩
  | number =>
    obtain ⟨t, rfl, ht⟩ := List.map_eq_singleton_iff.mp hts
    obtain ⟨s₁, hstep, hs₁⟩ := hs.step_operand (by rw [ht]; rfl)
    exact ⟨s₁, advance_cons_eq_ok_iff.mpr ⟨s₁, hstep, rfl⟩, hs₁⟩
  | decimal =>
    obtain ⟨t, rfl, ht⟩ := List.map_eq_singleton_iff.mp hts
    obtain ⟨s₁, hstep, hs₁⟩ := hs.step_operand (by rw [ht]; rfl)
    exact ⟨s₁, advance_cons_eq_ok_iff.mpr ⟨s₁, hstep, rfl⟩, hs₁⟩
  | group _ ih =>
    obtain ⟨opening, tail, rfl, hopening, htail⟩ := List.map_eq_cons_iff.mp hts
    obtain ⟨inner, last, rfl, hinner, hlast⟩ := List.map_eq_append_iff.mp htail
    obtain ⟨closing, rfl, hclosing⟩ := List.map_eq_singleton_iff.mp hlast
    obtain ⟨s₁, hopen, hs₁⟩ := hs.step_open hopening
    obtain ⟨s₂, hrun, hs₂⟩ := ih hinner hs₁
    obtain ⟨s₃, hclose, hs₃⟩ := hs₂.step_close hclosing
    exact ⟨s₃, advance_cons_eq_ok_iff.mpr ⟨s₁, hopen, advance_append_eq_ok_iff.mpr
      ⟨s₂, hrun, advance_cons_eq_ok_iff.mpr ⟨s₃, hclose, rfl⟩⟩⟩, hs₃⟩

theorem check_iff_derives (ts : List Token) :
    check ts = .ok () ↔ Derives .expression ((Token.significant ts).map Token.kind) := by
  rw [check_eq_ok_iff_finish]
  constructor
  · intro h
    obtain ⟨s, hrun, hfinish⟩ := h
    simpa using derives_of_finish (explains_initial.advance hrun) hfinish
  · intro h
    obtain ⟨s, hrun, hs⟩ := h.advance rfl State.awaits_initial
    exact ⟨s, hrun, hs.finish_eq_ok_iff.mpr rfl⟩

/-- The check accepts the expressions and nothing else. On the way its count of open groups is the
number of groups opened less the number closed, and a group is closed only where one is open. -/
theorem check_recognises_expressions (ts : List Token) :
    (check ts = .ok () ↔
        Derives .expression ((ts.filter fun t => t.kind ≠ .whitespace).map Token.kind)) ∧
      ∀ (front rest : List Token) (s : State),
        (ts.filter fun t => t.kind ≠ .whitespace) = front ++ rest →
        advance .initial front = .ok s →
          s.depth + (front.map Token.kind).count .closeBrace =
              (front.map Token.kind).count .openBrace ∧
            ∀ (t : Token) (s' : State), rest.head? = some t → s.step t = .ok s' →
              t.kind = .closeBrace → 0 < s.depth := by
  rw [← Token.significant_eq_filter]
  refine ⟨check_iff_derives ts, ?_⟩
  intro front rest s _ hrun
  have hcount := State.settled_initial.advance_depth hrun
  have hzero : State.initial.depth = 0 := rfl
  refine ⟨by omega, ?_⟩
  intro t s' _ hstep ht
  exact (State.settled_initial.advance hrun).depth_pos hstep ht

end Calculator.Grammar
