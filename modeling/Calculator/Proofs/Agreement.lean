import Calculator.Proofs.CheckStates
import Calculator.Proofs.Scanning
import Mathlib

/-!
The scan and the check keep step with each other. What the scan remembers for a later minus tells
whether the check awaits an operand, and both count the same open groups. So on scanned tokens the
check never finds fault with the sign of a minus, never misses a group that is to be closed, and
never reaches the end inside a group.
-/
namespace Calculator

open Grammar

namespace Token

def openBehind (depth : Nat) (front : List Token) : Nat :=
  front.foldl (fun depth u => u.kind.depthAfter depth) depth

/-- A scan that remembers `previous` inside `depth` open groups and a check in the state `s` have
come equally far: a minus negates exactly where an operand has to come next. -/
def InStep (previous : Option Kind) (depth : Nat) (s : State) : Prop :=
  (s.Awaits depth ∧ Lexeme.minus previous = .neg) ∨
    (s.Follows depth ∧ Lexeme.minus previous = .sub)

section Keeping

variable {previous : Option Kind} {depth : Nat} {s s' : State} {t : Token}

theorem inStep_initial : InStep none 0 .initial := Or.inl ⟨State.awaits_initial, rfl⟩

theorem minus_of_isOperator {k : Kind} (hk : k.isOperator = true) :
    Lexeme.minus (some k) = .neg := by
  simp [Lexeme.minus, hk]

theorem minus_of_isOperand {k : Kind} (hk : k.isOperand = true) :
    Lexeme.minus (some k) = .sub := by
  cases k <;> first | rfl | cases hk

theorem InStep.depth_eq (h : InStep previous depth s) : s.depth = depth := by
  rcases h with ⟨hs, -⟩ | ⟨hs, -⟩
  · exact hs.2
  · exact hs.2

theorem InStep.step (h : InStep previous depth s) (hstep : s.step t = .ok s') :
    InStep (some t.kind) (t.kind.depthAfter depth) s' := by
  rcases h with ⟨hs, -⟩ | ⟨hs, -⟩
  · rcases hs.step_cases hstep with ⟨ht, hnext⟩ | ⟨ht, hnext⟩ | ⟨ht, hnext⟩
    · rw [depthAfter_of_isOperand ht]
      exact Or.inr ⟨hnext, minus_of_isOperand ht⟩
    · rw [ht]
      exact Or.inl ⟨hnext, rfl⟩
    · rw [ht]
      exact Or.inl ⟨hnext, rfl⟩
  · rcases hs.step_cases hstep with ⟨ht, hnext⟩ | ⟨outer, rfl, ht, hnext⟩
    · have hop : t.kind.isOperator = true := Kind.isOperator_of_binary ht
      rw [depthAfter_of_isOperator hop]
      exact Or.inl ⟨hnext, minus_of_isOperator hop⟩
    · rw [ht]
      exact Or.inr ⟨hnext, rfl⟩

/-- What the check expects is told by what the scan remembers. -/
theorem InStep.mem_expected_iff (h : InStep previous depth s) (k : Kind) :
    k ∈ s.expected ↔
      (Lexeme.minus previous = .neg ∧ (k.isOperand = true ∨ k = .neg ∨ k = .openBrace)) ∨
        (Lexeme.minus previous = .sub ∧
          (k.arity = some .binary ∨ (k = .closeBrace ∧ 0 < depth))) := by
  rcases h with ⟨hs, hminus⟩ | ⟨hs, hminus⟩
  · rw [hs.1, mem_operandStart_iff, hminus]
    simp
  · rw [hs.1, mem_successors_number_iff, hminus]
    simp

/-- The minus that the scan would choose is one that the check expects. -/
theorem InStep.minus_mem (h : InStep previous depth s) : Lexeme.minus previous ∈ s.expected := by
  rw [h.mem_expected_iff]
  rcases Lexeme.minus_eq_neg_or_sub previous with hminus | hminus
  · exact Or.inl ⟨hminus, Or.inr (Or.inl hminus)⟩
  · exact Or.inr ⟨hminus, Or.inl (by rw [hminus]; rfl)⟩

/-- It is the only one. -/
theorem InStep.eq_minus {k : Kind} (h : InStep previous depth s) (hk : k = .neg ∨ k = .sub)
    (hmem : k ∈ s.expected) : k = Lexeme.minus previous := by
  rcases (h.mem_expected_iff k).mp hmem with ⟨hminus, hstart⟩ | ⟨hminus, hnext⟩
  · rcases hk with rfl | rfl
    · exact hminus.symm
    · simp [Kind.isOperand] at hstart
  · rcases hk with rfl | rfl
    · simp [Kind.arity] at hnext
    · exact hminus.symm

theorem InStep.whitespace_notMem (h : InStep previous depth s) :
    Kind.whitespace ∉ s.expected := by
  rw [h.mem_expected_iff]
  simp [Kind.isOperand, Kind.arity]

theorem InStep.kind_ne_whitespace (h : InStep previous depth s) (hstep : s.step t = .ok s') :
    t.kind ≠ .whitespace := by
  intro hblank
  obtain ⟨hmem, -⟩ := State.step_eq_ok_iff.mp hstep
  rw [hblank] at hmem
  exact h.whitespace_notMem hmem

theorem InStep.depth_pos_of_close_mem (h : InStep previous depth s)
    (hmem : Kind.closeBrace ∈ s.expected) : 0 < depth := by
  rw [h.mem_expected_iff] at hmem
  simp [Kind.isOperand, Kind.arity] at hmem
  exact hmem.2

/-- Inside a group its end is refused only where an operand has to come next. -/
theorem InStep.expected_eq_of_close_notMem (h : InStep previous depth s) (hdepth : 0 < depth)
    (hclose : Kind.closeBrace ∉ s.expected) : s.expected = .operandStart := by
  rcases h with ⟨hs, -⟩ | ⟨hs, -⟩
  · exact hs.1
  · rw [hs.1, mem_successors_number_iff] at hclose
    exact absurd (Or.inr ⟨rfl, hdepth⟩) hclose

end Keeping

section Runs

variable {previous : Option Kind} {depth : Nat} {s s' : State} {ts front rest : List Token}
  {place : Position} {source : List Char}

theorem significant_cons_of_whitespace {t : Token} (ht : t.kind = .whitespace) (ts : List Token) :
    significant (t :: ts) = significant ts := by
  simp [significant, isWhitespace, ht]

theorem significant_cons {t : Token} (ht : t.kind ≠ .whitespace) (ts : List Token) :
    significant (t :: ts) = t :: significant ts := by
  simp [significant, isWhitespace, ht]

/-- By induction on the tokens; whitespace moves neither the scan nor the check. -/
theorem InStep.advance (h : InStep previous depth s)
    (hrun : Grammar.advance s (significant front) = .ok s') :
    InStep (front.foldl (fun k u => lookback k u.kind) previous) (openBehind depth front) s' := by
  induction front generalizing previous depth s with
  | nil =>
    cases hrun
    exact h
  | cons t front ih =>
    simp only [List.foldl_cons, openBehind]
    by_cases ht : t.kind = .whitespace
    · rw [significant_cons_of_whitespace ht] at hrun
      have hsame := ih h hrun
      simpa [lookback, Kind.depthAfter, ht, openBehind] using hsame
    · rw [significant_cons ht] at hrun
      obtain ⟨next, hstep, hrest⟩ := advance_cons_eq_ok_iff.mp hrun
      rw [lookback, if_neg ht]
      exact ih (h.step hstep) hrest

/-- A scan is resumed behind any token with the place, the groups and the lookback found there. -/
theorem Reads.resume (h : Reads (front ++ rest) place depth previous source) :
    Reads rest (place.advance (text front)) (openBehind depth front)
      (front.foldl (fun k u => lookback k u.kind) previous) (text rest) := by
  induction front generalizing place depth previous source with
  | nil =>
    obtain rfl : source = text rest := (reads_iff_segmented.mp h).1
    exact h
  | cons t front ih =>
    obtain ⟨-, -, -, -, tail, -, -, htail⟩ := h
    rw [text, List.flatMap_cons, Position.advance_append]
    exact ih htail

/-- What stands in front of a significant token, with the whitespace that the check skips. -/
theorem exists_split_of_significant {front rest : List Token} {t : Token}
    (h : significant ts = front ++ t :: rest) :
    ∃ front' rest', ts = front' ++ t :: rest' ∧ significant front' = front := by
  obtain ⟨left, right, rfl, hleft, hright⟩ := List.filter_eq_append_iff.mp h
  obtain ⟨blank, rest', rfl, hblank, -, -⟩ := List.filter_eq_cons_iff.mp hright
  refine ⟨left ++ blank, rest', by rw [List.append_assoc], ?_⟩
  have hnone : significant blank = [] := List.filter_eq_nil_iff.mpr hblank
  rw [significant_append, hnone, List.append_nil]
  exact hleft

end Runs

section Scans

variable {source : String} {ts : List Token}

theorem reads_of_scan (h : scan source = .ok ts) : Reads ts .start 0 none source.toList :=
  reads_of_scanFrom h

/-- At a token that the check reaches, the scan and the check have come equally far. -/
theorem inStep_of_reached {front : List Token} {s : State}
    (h : advance .initial (significant front) = .ok s) :
    InStep (front.foldl (fun k u => lookback k u.kind) none) (openBehind 0 front) s :=
  inStep_initial.advance h

/-- A token that the check refuses on scanned input is no minus, and it ends a group only where an
operand has to come next. -/
theorem refused_of_scan (h : scan source = .ok ts) {front rest : List Token} {t : Token}
    {s : State} (hts : significant ts = front ++ t :: rest)
    (hrun : advance .initial front = .ok s) (hrefused : t.kind ∉ s.expected) :
    t.kind ≠ .sub ∧ t.kind ≠ .neg ∧ (t.kind = .closeBrace → s.expected = .operandStart) := by
  obtain ⟨front', rest', rfl, rfl⟩ := exists_split_of_significant hts
  have hstep := inStep_of_reached hrun
  obtain ⟨-, hclose, hspells, hminus, -⟩ := (reads_of_scan h).resume
  have hsign : t.lexeme.toList ≠ ['-'] := by
    intro htext
    rw [hminus htext] at hrefused
    exact hrefused hstep.minus_mem
  refine ⟨?_, ?_, ?_⟩
  · intro hk
    rw [hk] at hspells
    exact hsign hspells
  · intro hk
    rw [hk] at hspells
    exact hsign hspells
  · intro hk
    rw [hk] at hrefused
    exact hstep.expected_eq_of_close_notMem (Nat.pos_of_ne_zero (hclose hk)) hrefused

/-- The end of scanned input comes too early only where an operand has to come next. -/
theorem finish_of_scan (h : scan source = .ok ts) {s : State} {e : SyntaxError}
    (hrun : advance .initial (significant ts) = .ok s) (hfinish : s.finish = .error e) :
    e = .unexpectedEnd .operandStart s.stop := by
  have hread := reads_of_scan h
  rw [← List.append_nil ts] at hread
  have hdepth : openBehind 0 ts = 0 := hread.resume.2
  rcases inStep_of_reached hrun with ⟨hs, -⟩ | ⟨hs, -⟩
  · rw [hs.finish_eq] at hfinish
    exact (Except.error.inj hfinish).symm
  · rw [hs.finish_eq_ok_iff.mpr hdepth] at hfinish
    cases hfinish

/-- Behind tokens that the check accepts, the scan goes on inside the groups that the check has
counted. -/
theorem scan_resume {front rest : List Token} (h : scan source = .ok (front ++ rest)) {s : State}
    (hrun : advance .initial (significant front) = .ok s) :
    scan source =
      (scanFrom (Position.start.advance (text front)) s.depth
        ((significant front).getLast?.map Token.kind) (text rest)).map (front ++ ·) := by
  have hrest := scanFrom_of_reads (reads_of_scan h).resume
  rw [foldl_lookback, ← (inStep_of_reached hrun).depth_eq] at hrest
  rw [h, hrest]
  rfl

end Scans

/-- The same token, but for the sign if it is a minus. -/
def SameButSign (t u : Token) : Prop :=
  u.lexeme = t.lexeme ∧ u.position = t.position ∧
    (u.kind = t.kind ∨ t.lexeme = "-" ∧ (u.kind = .neg ∨ u.kind = .sub))

section Signs

variable {previous : Option Kind} {depth : Nat} {s s' : State} {t u : Token} {ts us : List Token}
  {place : Position} {source : List Char}

theorem SameButSign.refl (t : Token) : SameButSign t t := ⟨rfl, rfl, .inl rfl⟩

theorem SameButSign.eq (h : SameButSign t u) (hkind : u.kind = t.kind) : u = t := by
  obtain ⟨hlexeme, hposition, -⟩ := h
  cases t
  cases u
  simp_all

/-- Where the scan and the check are in step, an accepted sign is the one that was scanned. -/
theorem SameButSign.eq_of_step (h : SameButSign t u) (hinStep : InStep previous depth s)
    (hminus : t.lexeme.toList = ['-'] → t.kind = Lexeme.minus previous)
    (hstep : s.step u = .ok s') : u = t := by
  obtain ⟨hmem, -⟩ := State.step_eq_ok_iff.mp hstep
  rcases h.2.2 with hkind | ⟨hlexeme, hsign⟩
  · exact h.eq hkind
  · have hscanned := hminus (by rw [hlexeme]; rfl)
    exact h.eq ((hinStep.eq_minus hsign hmem).trans hscanned.symm)

/-- By induction on the tokens: as long as every sign is the scanned one, scan and check stay in
step, so that the next sign is too. -/
theorem eq_of_sameButSign (hsame : List.Forall₂ SameButSign ts us)
    (hread : Reads ts place depth previous source) (hinStep : InStep previous depth s)
    (hrun : advance s (significant us) = .ok s') : us = ts := by
  induction hsame generalizing place depth previous source s with
  | nil => rfl
  | @cons t u ts us htu _ ih =>
    obtain ⟨-, -, -, hminus, tail, -, -, htail⟩ := hread
    by_cases hu : u.kind = .whitespace
    · have hkind : u.kind = t.kind := by
        rcases htu.2.2 with hkind | ⟨-, hsign⟩
        · exact hkind
        · rw [hu] at hsign
          simp at hsign
      rw [significant_cons_of_whitespace hu] at hrun
      rw [← hkind, hu] at htail
      rw [htu.eq hkind, ih htail hinStep hrun]
    · rw [significant_cons hu] at hrun
      obtain ⟨next, hstep, hrest⟩ := advance_cons_eq_ok_iff.mp hrun
      obtain rfl := htu.eq_of_step hinStep hminus hstep
      rw [lookback, if_neg hu] at htail
      rw [ih htail (hinStep.step hstep) hrest]

/-- Of all choices of signs for scanned tokens, the check accepts none but that of the scan. -/
theorem eq_of_check {source : String} (hscan : scan source = .ok ts)
    (hsame : List.Forall₂ SameButSign ts us) (hcheck : check us = .ok ()) : us = ts := by
  obtain ⟨s, hrun, -⟩ := check_eq_ok_iff_finish.mp hcheck
  exact eq_of_sameButSign hsame (reads_of_scan hscan) inStep_initial hrun

end Signs

/-- On scanned tokens the check agrees with the scan. No other choice of signs is accepted; no
minus is refused, and the end of a group only where an operand has to come next; the end comes too
early only for want of an operand; and at every token that the check reaches, it has counted the
open groups inside which the scan goes on. -/
theorem check_agrees_with_scan {source : String} {ts : List Token} (h : scan source = .ok ts) :
    (∀ us, List.Forall₂ SameButSign ts us → check us = .ok () → us = ts) ∧
      (∀ k expected p, check ts = .error (.unexpectedToken k expected p) →
        k ≠ .sub ∧ k ≠ .neg ∧ (k = .closeBrace → expected = .operandStart)) ∧
      (∀ expected p, check ts = .error (.unexpectedEnd expected p) → expected = .operandStart) ∧
      ∀ front t rest s, ts = front ++ t :: rest →
        advance .initial (significant front) = .ok s →
          scan source =
            (scanFrom (Position.start.advance (text front)) s.depth
              ((significant front).getLast?.map Token.kind) (text (t :: rest))).map
                (front ++ ·) := by
  refine ⟨fun us => eq_of_check h, ?_, ?_, ?_⟩
  · intro k expected p hcheck
    rcases check_eq_error_iff.mp hcheck with ⟨front, t, rest, s, hts, hrun, hstep⟩ | ⟨s, hrun, hend⟩
    · obtain ⟨hrefused, heq⟩ := State.step_eq_error_iff.mp hstep
      cases heq
      exact refused_of_scan h hts hrun hrefused
    · cases finish_of_scan h hrun hend
  · intro expected p hcheck
    rcases check_eq_error_iff.mp hcheck with ⟨front, t, rest, s, hts, hrun, hstep⟩ | ⟨s, hrun, hend⟩
    · cases (State.step_eq_error_iff.mp hstep).2
    · cases finish_of_scan h hrun hend
      rfl
  · intro front t rest s hts hrun
    subst hts
    exact scan_resume h hrun

/-- The tokens of `-(2 - )`, in which an operand is missing. -/
def danglingMinus : List Token :=
  [⟨.neg, "-", ⟨1, 1⟩⟩, ⟨.openBrace, "(", ⟨2, 1⟩⟩, ⟨.number, "2", ⟨3, 1⟩⟩,
    ⟨.whitespace, " ", ⟨4, 1⟩⟩, ⟨.sub, "-", ⟨5, 1⟩⟩, ⟨.whitespace, " ", ⟨6, 1⟩⟩,
    ⟨.closeBrace, ")", ⟨7, 1⟩⟩]

theorem check_danglingMinus :
    scan "-(2 - )" = .ok danglingMinus ∧
      check danglingMinus = .error (.unexpectedToken .closeBrace .operandStart ⟨7, 1⟩) ∧
      (∀ us, List.Forall₂ SameButSign danglingMinus us → check us ≠ .ok ()) ∧
      scan "-(2 - )" =
        (scanFrom ⟨3, 1⟩ 1 (some .openBrace) ['2', ' ', '-', ' ', ')']).map
          (danglingMinus.take 2 ++ ·) := by
  have hscan : scan "-(2 - )" = .ok danglingMinus := by cbv
  have hcheck : check danglingMinus =
      .error (.unexpectedToken .closeBrace .operandStart ⟨7, 1⟩) := rfl
  obtain ⟨hsigns, -, -, hresume⟩ := check_agrees_with_scan hscan
  refine ⟨hscan, hcheck, ?_, ?_⟩
  · intro us hsame hus
    rw [hsigns us hsame hus, hcheck] at hus
    cases hus
  · exact hresume (danglingMinus.take 2) _ (danglingMinus.drop 3) _ rfl rfl

end Token

end Calculator
