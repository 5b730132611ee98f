import Calculator.Proofs.Agreement

/-!
What a report of the check says about all texts that begin alike. From every state that a check can
come to, some further tokens lead to an accepted end: an operand where one has to come next, and the
end of each open group. So the expected kinds are exactly the kinds that accepted sequences go on
with, and a token that is refused is refused whatever stands behind it.
-/
namespace Calculator.Grammar

open Token

/-- Some accepted sequence begins with these tokens and has a token of this kind next. -/
def Continues (front : List Token) (k : Kind) : Prop :=
  ∃ t rest, t.kind = k ∧ check (front ++ t :: rest) = .ok ()

def groupEnds (depth : Nat) : List Token := List.replicate depth ⟨.closeBrace, ")", .start⟩

section Completions

variable {s : State} {depth : Nat}

theorem significant_groupEnds (depth : Nat) : significant (groupEnds depth) = groupEnds depth := by
  refine List.filter_eq_self.mpr fun t ht => ?_
  rw [List.eq_of_mem_replicate ht]
  rfl

/-- By induction on the number of open groups. -/
theorem State.Follows.advance_groupEnds (hs : s.Follows depth) :
    ∃ s', Grammar.advance s (groupEnds depth) = .ok s' ∧ s'.Follows 0 := by
  induction depth generalizing s with
  | zero => exact ⟨s, rfl, hs⟩
  | succ depth ih =>
    obtain ⟨next, hstep, hnext⟩ := hs.step_close (t := ⟨.closeBrace, ")", .start⟩) rfl
    obtain ⟨s', hrun, hs'⟩ := ih hnext
    exact ⟨s', advance_cons_eq_ok_iff.mpr ⟨next, hstep, hrun⟩, hs'⟩

/-- Behind an operand it is enough to end all groups. -/
theorem State.Follows.exists_completion (hs : s.Follows depth) :
    ∃ rest s', Grammar.advance s (significant rest) = .ok s' ∧ s'.finish = .ok () := by
  obtain ⟨s', hrun, hs'⟩ := hs.advance_groupEnds
  refine ⟨groupEnds depth, s', ?_, hs'.finish_eq_ok_iff.mpr rfl⟩
  rw [significant_groupEnds]
  exact hrun

/-- Every state of a check leads to an accepted end. -/
theorem State.Settled.exists_completion (hs : s.Settled) :
    ∃ rest s', Grammar.advance s (significant rest) = .ok s' ∧ s'.finish = .ok () := by
  obtain ⟨depth, hs | hs⟩ := hs
  · obtain ⟨next, hstep, hnext⟩ := hs.step_operand (t := ⟨.number, "0", .start⟩) rfl
    obtain ⟨rest, s', hrun, hfinish⟩ := hnext.exists_completion
    refine ⟨⟨.number, "0", .start⟩ :: rest, s', ?_, hfinish⟩
    rw [significant_cons (by decide)]
    exact advance_cons_eq_ok_iff.mpr ⟨next, hstep, hrun⟩
  · exact hs.exists_completion

end Completions

section Extensions

variable {s : State} {t : Token} {front rest : List Token}

/-- A check of a longer sequence goes on from the state that its front leads to. -/
theorem check_append_eq_ok_iff (hrun : advance .initial (significant front) = .ok s) :
    check (front ++ rest) = .ok () ↔
      ∃ s', advance s (significant rest) = .ok s' ∧ s'.finish = .ok () := by
  rw [check_eq_ok_iff_finish, significant_append]
  constructor
  · intro h
    obtain ⟨s', hall, hfinish⟩ := h
    obtain ⟨mid, hfront, hrest⟩ := advance_append_eq_ok_iff.mp hall
    obtain rfl : s = mid := Except.ok.inj (hrun.symm.trans hfront)
    exact ⟨s', hrest, hfinish⟩
  · intro h
    obtain ⟨s', hrest, hfinish⟩ := h
    exact ⟨s', advance_append_eq_ok_iff.mpr ⟨s, hrun, hrest⟩, hfinish⟩

/-- The expected kinds are those that accepted sequences go on with. -/
theorem mem_expected_iff_continues (hrun : advance .initial (significant front) = .ok s) {k : Kind}
    (hk : k ≠ .whitespace) : k ∈ s.expected ↔ Continues front k := by
  have hsettled : s.Settled := State.settled_initial.advance hrun
  constructor
  · intro hmem
    have hstep : s.step ⟨k, "", .start⟩ = .ok (s.after ⟨k, "", .start⟩) :=
      State.step_eq_ok_iff.mpr ⟨hmem, rfl⟩
    obtain ⟨rest, s', hrest, hfinish⟩ := (hsettled.step hstep).exists_completion
    refine ⟨⟨k, "", .start⟩, rest, rfl, (check_append_eq_ok_iff hrun).mpr ⟨s', ?_, hfinish⟩⟩
    rw [significant_cons hk]
    exact advance_cons_eq_ok_iff.mpr ⟨_, hstep, hrest⟩
  · intro h
    obtain ⟨t, rest, rfl, hcheck⟩ := h
    obtain ⟨s', hrest, -⟩ := (check_append_eq_ok_iff hrun).mp hcheck
    rw [significant_cons hk] at hrest
    obtain ⟨next, hstep, -⟩ := advance_cons_eq_ok_iff.mp hrest
    exact (State.step_eq_ok_iff.mp hstep).1

/-- A token that is refused is refused in front of anything. -/
theorem check_of_refused {e : SyntaxError} (hrun : advance .initial (significant front) = .ok s)
    (ht : t.kind ≠ .whitespace) (hstep : s.step t = .error e) (more : List Token) :
    check (front ++ t :: more) = .error e := by
  refine check_eq_error_iff.mpr (.inl ⟨significant front, t, significant more, s, ?_, hrun, hstep⟩)
  rw [significant_append, significant_cons ht]

end Extensions

section Groups

variable {s : State} {ts more : List Token} {depth : Nat}

/-- Whitespace neither opens nor closes a group. -/
theorem count_significant {k : Kind} (hk : k ≠ .whitespace) (ts : List Token) :
    ((significant ts).map Token.kind).count k = (ts.map Token.kind).count k := by
  induction ts with
  | nil => rfl
  | cons t ts ih =>
    by_cases ht : t.kind = .whitespace
    · rw [significant_cons_of_whitespace ht, ih, List.map_cons, ht]
      exact (List.count_cons_of_ne hk.symm).symm
    · rw [significant_cons ht, List.map_cons, List.map_cons, List.count_cons, List.count_cons, ih]

/-- What a check has counted are the groups that are still open. -/
theorem openings_eq (hs : s.Settled) {s' : State} (hrun : advance s (significant ts) = .ok s') :
    s'.depth + closings ts = s.depth + openings ts := by
  have hcount := hs.advance_depth hrun
  rwa [count_significant (by decide), count_significant (by decide)] at hcount

/-- Behind an operand the end is refused for the groups that are still open. -/
theorem State.Follows.finish_eq (hs : s.Follows depth) (hdepth : 0 < depth) :
    s.finish = .error (.unexpectedEnd (.ofList [.closeBrace]) s.stop) := by
  have hmem : Kind.number ∉ s.expected := by
    rw [hs.1, mem_successors_number_iff]
    simp [Kind.arity]
  rw [finish, if_neg hmem, hs.2, if_pos hdepth]

/-- The end is refused for want of an operand or inside a group. -/
theorem State.Settled.finish_error_cases (hs : s.Settled) {e : SyntaxError}
    (h : s.finish = .error e) :
    (∃ depth, s.Awaits depth ∧ e = .unexpectedEnd .operandStart s.stop) ∨
      ∃ depth, s.Follows depth ∧ 0 < depth ∧ e = .unexpectedEnd (.ofList [.closeBrace]) s.stop := by
  obtain ⟨depth, hs | hs⟩ := hs
  · rw [hs.finish_eq] at h
    exact .inl ⟨depth, hs, (Except.error.inj h).symm⟩
  · rcases Nat.eq_zero_or_pos depth with hdepth | hdepth
    · rw [hs.finish_eq_ok_iff.mpr hdepth] at h
      cases h
    · rw [hs.finish_eq hdepth] at h
      exact .inr ⟨depth, hs, hdepth, (Except.error.inj h).symm⟩

/-- No accepted sequence leaves a group open. -/
theorem openings_le_of_check (hrun : advance .initial (significant ts) = .ok s)
    (hcheck : check (ts ++ more) = .ok ()) : openings ts - closings ts ≤ closings more := by
  obtain ⟨s', hrest, hfinish⟩ := (check_append_eq_ok_iff hrun).mp hcheck
  have hsettled : s.Settled := State.settled_initial.advance hrun
  have hfront := openings_eq State.settled_initial hrun
  have hback := openings_eq hsettled hrest
  have hzero : State.initial.depth = 0 := rfl
  have hend : s'.depth = 0 := by
    obtain ⟨depth, hs' | hs'⟩ := hsettled.advance hrest
    · exact absurd hfinish hs'.finish_ne_ok
    · exact hs'.2.trans (hs'.finish_eq_ok_iff.mp hfinish)
  omega

end Groups

/-- A report of the check is exact about all sequences that begin with what has been read. A token
that is refused is refused in front of anything, and the kinds that are named instead are those that
accepted sequences go on with. So they are where the sequence ends for want of an operand; and where
it ends inside a group, that group can be closed next, and each group still open has to be. -/
theorem check_error_tells_continuations (ts : List Token) :
    (∀ k expected p, check ts = .error (.unexpectedToken k expected p) →
      ∃ front t rest, ts = front ++ t :: rest ∧ t.kind = k ∧ t.position = p ∧ k ≠ .whitespace ∧
        (∀ j, j ≠ .whitespace → (j ∈ expected ↔ Continues front j)) ∧ k ∉ expected ∧
        ∀ more, check (front ++ t :: more) = .error (.unexpectedToken k expected p)) ∧
    ∀ expected p, check ts = .error (.unexpectedEnd expected p) →
      (expected = .operandStart ∧ ∀ j, j ≠ .whitespace → (j ∈ expected ↔ Continues ts j)) ∨
      (expected = .ofList [.closeBrace] ∧ closings ts < openings ts ∧ Continues ts .closeBrace ∧
        ∀ more, check (ts ++ more) = .ok () → openings ts - closings ts ≤ closings more) := by
  constructor
  · intro k expected p hcheck
    rcases check_eq_error_iff.mp hcheck with ⟨front, t, rest, s, hts, hrun, hstep⟩ | ⟨s, hrun, hend⟩
    · have ht : t.kind ≠ .whitespace := by
        have hmem : t ∈ significant ts := by rw [hts]; simp
        simpa [isWhitespace] using (List.mem_filter.mp hmem).2
      obtain ⟨front, rest, rfl, rfl⟩ := exists_split_of_significant hts
      obtain ⟨hrefused, heq⟩ := State.step_eq_error_iff.mp hstep
      cases heq
      exact ⟨front, t, rest, rfl, rfl, rfl, ht, fun j hj => mem_expected_iff_continues hrun hj,
        hrefused, check_of_refused hrun ht hstep⟩
    · rcases (State.settled_initial.advance hrun).finish_error_cases hend with
        ⟨_, _, heq⟩ | ⟨_, _, _, heq⟩ <;> cases heq
  · intro expected p hcheck
    rcases check_eq_error_iff.mp hcheck with ⟨front, t, rest, s, hts, hrun, hstep⟩ | ⟨s, hrun, hend⟩
    · cases (State.step_eq_error_iff.mp hstep).2
    · rcases (State.settled_initial.advance hrun).finish_error_cases hend with
        ⟨depth, hs, heq⟩ | ⟨depth, hs, hdepth, heq⟩
      · cases heq
        refine .inl ⟨rfl, fun j hj => ?_⟩
        rw [← hs.1]
        exact mem_expected_iff_continues hrun hj
      · cases heq
        have hcount := openings_eq State.settled_initial hrun
        have hzero : State.initial.depth = 0 := rfl
        have hopen : s.depth = depth := hs.2
        refine .inr ⟨rfl, by omega, ?_, fun more hmore => openings_le_of_check hrun hmore⟩
        refine (mem_expected_iff_continues hrun (by decide)).mp ?_
        rw [hs.1, mem_successors_number_iff]
        exact .inr ⟨rfl, hdepth⟩

/-- Tokens by hand, as in `2*((3`, with two groups that nothing closes. -/
def twoGroupsOpen : List Token :=
  [⟨.number, "2", ⟨1, 1⟩⟩, ⟨.mul, "*", ⟨2, 1⟩⟩, ⟨.openBrace, "(", ⟨3, 1⟩⟩,
    ⟨.openBrace, "(", ⟨4, 1⟩⟩, ⟨.number, "3", ⟨5, 1⟩⟩]

theorem check_twoGroupsOpen :
    check twoGroupsOpen = .error (.unexpectedEnd (.ofList [.closeBrace]) ⟨6, 1⟩) ∧
      Continues twoGroupsOpen .closeBrace ∧
      (∀ more, check (twoGroupsOpen ++ more) = .ok () → 2 ≤ closings more) ∧
      check (twoGroupsOpen ++ [⟨.openBrace, "(", ⟨6, 1⟩⟩]) =
        .error (.unexpectedToken .openBrace (KindSet.binaryOperators.insert .closeBrace) ⟨6, 1⟩) ∧
      ∃ front t rest, twoGroupsOpen ++ [⟨.openBrace, "(", ⟨6, 1⟩⟩] = front ++ t :: rest ∧
        t.kind = .openBrace ∧ Continues front .closeBrace ∧
        ∀ more, check (front ++ t :: more) ≠ .ok () := by
  have hend : check twoGroupsOpen = .error (.unexpectedEnd (.ofList [.closeBrace]) ⟨6, 1⟩) := rfl
  have hopen : check (twoGroupsOpen ++ [⟨.openBrace, "(", ⟨6, 1⟩⟩]) =
      .error (.unexpectedToken .openBrace (KindSet.binaryOperators.insert .closeBrace) ⟨6, 1⟩) := rfl
  refine ⟨hend, ?_, ?_, hopen, ?_⟩
  · rcases (check_error_tells_continuations _).2 _ _ hend with ⟨hset, _⟩ | ⟨_, _, hnext, _⟩
    · exact absurd hset (by decide)
    · exact hnext
  · rcases (check_error_tells_continuations _).2 _ _ hend with ⟨hset, _⟩ | ⟨_, _, _, hclose⟩
    · exact absurd hset (by decide)
    · exact hclose
  · obtain ⟨front, t, rest, hsplit, hkind, -, -, hexact, -, hrefused⟩ :=
      (check_error_tells_continuations _).1 _ _ _ hopen
    refine ⟨front, t, rest, hsplit, hkind, (hexact _ (by decide)).mp (by decide), fun more hok => ?_⟩
    rw [hrefused more] at hok
    cases hok

end Calculator.Grammar
