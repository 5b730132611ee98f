import Calculator.Proofs.Faults

/-!
What a fault of the scan says about all texts that begin alike. Ends of groups and digits behind a
point complete what has been read without making it longer. So every text that has been read without
a fault is the front of an accepted one, and a character that cannot be read is refused in front of
anything.
-/
namespace Calculator

def EndsInPoint (text : List Char) : Prop :=
  ∃ front whole, text = front ++ (whole ++ ['.']) ∧ Kind.Digits whole

/-- No spelling ends in a point. -/
theorem Kind.Spells.getLast_ne_point {k : Kind} {text : List Char} (h : k.Spells text) :
    ∀ c ∈ text.getLast?, c ≠ '.' := by
  have hdigits : ∀ {run : List Char}, Kind.Digits run → ∀ c ∈ run.getLast?, c ≠ '.' := by
    rintro run hrun c hc rfl
    exact absurd (hrun.2 '.' (List.mem_of_getLast? hc)) (by decide)
  cases k
  case number => exact hdigits h
  case decimal =>
    obtain ⟨whole, fraction, rfl, -, hfraction⟩ := h
    rw [List.getLast?_append_of_ne_nil _ (List.cons_ne_nil _ _),
      List.getLast?_cons_of_ne_nil hfraction.1]
    exact hdigits hfraction
  case whitespace =>
    rintro c hc rfl
    exact absurd (h.2 '.' (List.mem_of_getLast? hc)) (by decide)
  all_goals
    obtain rfl := h
    rintro c hc rfl
    exact absurd hc (by decide)

namespace Token

variable {p : Position} {depth : Nat} {previous : Option Kind} {source rest : List Char}
  {front : List Token} {e : LexicalError}

section Completions

/-- The end of a group is refused where none is open. -/
theorem scanFrom_close (p : Position) (previous : Option Kind) (more : List Char) :
    scanFrom p 0 previous (')' :: more) = .error (.unexpectedCloseBrace p) := by
  have hfirst : Lexeme.first previous p ')' more = .ok ⟨.closeBrace, [')'], more⟩ :=
    Lexeme.first_symbol rfl rfl rfl
  rw [scanFrom_cons_ok hfirst]
  rfl

/-- Ending all groups completes the text. -/
theorem exists_scanFrom_ends (p : Position) (depth : Nat) (previous : Option Kind) :
    ∃ ts, scanFrom p depth previous (List.replicate depth ')') = .ok ts := by
  induction depth generalizing p previous with
  | zero => exact ⟨[], by simp⟩
  | succ depth ih =>
    obtain ⟨ts, hts⟩ := ih (p.advance [')']) (lookback previous .closeBrace)
    have hfirst : Lexeme.first previous p ')' (List.replicate depth ')') =
        .ok ⟨.closeBrace, [')'], List.replicate depth ')'⟩ :=
      Lexeme.first_symbol rfl rfl rfl
    refine ⟨⟨.closeBrace, ")", p⟩ :: ts, ?_⟩
    rw [List.replicate_succ]
    exact scanFrom_cons_eq_ok_iff.mpr ⟨_, ts, hfirst, fun _ => Nat.succ_ne_zero depth, hts, rfl⟩

/-- Behind a point a digit has to come first. -/
theorem exists_scanFrom_digit {whole : List Char} (hwhole : Kind.Digits whole) (p : Position)
    (depth : Nat) (previous : Option Kind) :
    ∃ ts, scanFrom p depth previous (whole ++ '.' :: '0' :: List.replicate depth ')') = .ok ts := by
  have hspells : Kind.decimal.Spells (whole ++ ['.', '0']) :=
    ⟨whole, ['0'], rfl, hwhole, by simp, by simp⟩
  have hend : Lexeme.Stops .decimal [] := nofun
  have hstops : Lexeme.Stops .decimal (List.replicate depth ')') :=
    hend.of_beginsLike (beginsLike_ends [] depth)
  obtain ⟨c, run, hrun⟩ := List.exists_cons_of_ne_nil hspells.ne_nil
  have hsplit : c :: (run ++ List.replicate depth ')') =
      whole ++ ['.', '0'] ++ List.replicate depth ')' := by
    rw [hrun, List.cons_append]
  have hminus : whole ++ ['.', '0'] = ['-'] → Kind.decimal = Lexeme.minus previous := by
    intro h
    have hlength := congrArg List.length h
    rw [List.length_append] at hlength
    exact absurd hlength (by simp)
  have hfirst : Lexeme.first previous p c (run ++ List.replicate depth ')') =
      .ok ⟨.decimal, whole ++ ['.', '0'], List.replicate depth ')'⟩ :=
    Lexeme.first_of_spells hspells hstops hminus hsplit
  obtain ⟨ts, hts⟩ := exists_scanFrom_ends (p.advance (whole ++ ['.', '0'])) depth
    (lookback previous .decimal)
  refine ⟨⟨.decimal, String.ofList (whole ++ ['.', '0']), p⟩ :: ts, ?_⟩
  have htext : whole ++ '.' :: '0' :: List.replicate depth ')' =
      c :: (run ++ List.replicate depth ')') := by
    rw [hsplit]
    simp
  rw [htext]
  exact scanFrom_cons_eq_ok_iff.mpr ⟨_, ts, hfirst, nofun, hts, rfl⟩

/-- Behind digits and a point anything but a digit is a fault. -/
theorem scanFrom_point {whole more : List Char} (hwhole : Kind.Digits whole)
    (hmore : ∀ c ∈ more.head?, c.isDigit = false) (p : Position) (depth : Nat)
    (previous : Option Kind) :
    scanFrom p depth previous (whole ++ '.' :: more) =
      .error (Lexeme.missingDigit (p.advance (whole ++ ['.'])) more) := by
  have hpoint : ∀ c ∈ ('.' :: more).head?, c.isDigit = false := by
    intro c hc
    cases hc
    rfl
  obtain ⟨c, run, rfl⟩ := List.exists_cons_of_ne_nil hwhole.1
  have hc : c.isDigit = true := hwhole.2 c List.mem_cons_self
  have hnone : ([] ++ more).takeWhile Char.isDigit = [] :=
    Lexeme.takeWhile_append_of_stop nofun hmore
  rw [List.nil_append] at hnone
  refine scanFrom_cons_error ?_ depth
  have hliteral : Lexeme.literal p (c :: run ++ '.' :: more) =
      .error (Lexeme.missingDigit (p.advance (c :: run ++ ['.'])) more) := by
    simp only [Lexeme.literal]
    rw [Lexeme.takeWhile_append_of_stop hwhole.2 hpoint,
      Lexeme.dropWhile_append_of_stop hwhole.2 hpoint]
    simp only [hnone, if_true]
  rw [Lexeme.first, if_pos hc]
  exact hliteral

end Completions

section Texts

theorem not_endsInPoint_text (hspelled : ∀ t ∈ front, t.kind.Spells t.lexeme.toList) :
    ¬EndsInPoint (text front) := by
  rintro ⟨before, whole, htext, -⟩
  have hlast : '.' ∈ (text front).getLast? := by
    rw [htext, ← List.append_assoc]
    simp
  rcases List.eq_nil_or_concat front with rfl | ⟨init, t, rfl⟩
  · cases hlast
  · rw [List.concat_eq_append] at hspelled hlast
    have hspells := hspelled t (by simp)
    have hsplit : text (init ++ [t]) = text init ++ t.lexeme.toList := by simp [text]
    rw [hsplit, List.getLast?_append_of_ne_nil _ hspells.ne_nil] at hlast
    exact hspells.getLast_ne_point '.' hlast rfl

end Texts

section Sources

variable {inner : Nat} {last : Option Kind} {more : List Char}

theorem Passed.scan_ofList (h : Passed .start 0 none front rest inner last)
    (hlike : BeginsLike rest more) :
    scan (String.ofList (text front ++ more)) =
      (scanFrom (Position.start.advance (text front)) inner last more).map (front ++ ·) := by
  rw [scan, String.toList_ofList]
  exact h.resumes more hlike

theorem Passed.exists_scan (h : Passed .start 0 none front rest inner last)
    (hlike : BeginsLike rest more)
    (hmore : ∃ ts, scanFrom (Position.start.advance (text front)) inner last more = .ok ts) :
    ∃ ts, scan (String.ofList (text front ++ more)) = .ok ts := by
  obtain ⟨ts, hts⟩ := hmore
  refine ⟨front ++ ts, ?_⟩
  rw [h.scan_ofList hlike, hts]
  rfl

theorem Passed.scan_error (h : Passed .start 0 none front rest inner last)
    (hlike : BeginsLike rest more)
    (hmore : scanFrom (Position.start.advance (text front)) inner last more = .error e) :
    scan (String.ofList (text front ++ more)) = .error e := by
  rw [h.scan_ofList hlike, hmore]
  rfl

/-- Where a character is refused whatever stands behind it, the text in front of it can be
completed, and what goes on with the character cannot. -/
theorem Passed.cut_of_refused (h : Passed .start 0 none front rest inner last) {c : Char}
    {tail : List Char} (hrest : rest = c :: tail)
    (hrefused : ∀ more,
      scanFrom (Position.start.advance (text front)) inner last (c :: more) = .error e) :
    (∃ more ts, scan (String.ofList (text front ++ more)) = .ok ts) ∧
      ∀ more, scan (String.ofList (text front ++ c :: more)) = .error e := by
  subst hrest
  refine ⟨⟨_, h.exists_scan (beginsLike_ends _ inner) (exists_scanFrom_ends _ inner last)⟩, ?_⟩
  exact fun more => h.scan_error (beginsLike_cons c tail more) (hrefused more)

section Points

variable {whole tail : List Char}

/-- Digits and a point are gone on with by a digit. -/
theorem Passed.exists_scan_digit (h : Passed .start 0 none front (whole ++ '.' :: tail) inner last)
    (hwhole : Kind.Digits whole) :
    ∃ more ts, more ≠ [] ∧
      scan (String.ofList (text front ++ (whole ++ ['.']) ++ more)) = .ok ts := by
  have hlike : BeginsLike (whole ++ '.' :: tail)
      (whole ++ '.' :: '0' :: List.replicate inner ')') :=
    (beginsLike_cons '.' _ _).append whole
  obtain ⟨ts, hts⟩ := h.exists_scan hlike (exists_scanFrom_digit hwhole _ inner last)
  exact ⟨'0' :: List.replicate inner ')', ts, List.cons_ne_nil _ _, by simpa using hts⟩

/-- They are gone on with by nothing else. -/
theorem Passed.scan_no_digit (h : Passed .start 0 none front (whole ++ '.' :: tail) inner last)
    (hwhole : Kind.Digits whole) (hmore : ∀ c ∈ more.head?, c.isDigit = false) :
    scan (String.ofList (text front ++ (whole ++ ['.']) ++ more)) =
      .error (Lexeme.missingDigit
        ((Position.start.advance (text front)).advance (whole ++ ['.'])) more) := by
  have hlike : BeginsLike (whole ++ '.' :: tail) (whole ++ '.' :: more) :=
    (beginsLike_cons '.' _ _).append whole
  have htext : text front ++ (whole ++ ['.']) ++ more = text front ++ (whole ++ '.' :: more) := by
    simp
  rw [htext]
  exact h.scan_error hlike (scanFrom_point hwhole hmore _ inner last)

end Points

/-- What stands in front of a fault can be completed, and what goes on with the character at the
fault cannot. -/
theorem Passed.cut_of_fault (h : Passed .start 0 none front rest inner last)
    (hfault : Fault (Position.start.advance (text front)) inner last rest e)
    (hnone : e.expected = none) :
    ∃ u c v, text front ++ rest = u ++ c :: v ∧ Position.start.advance u = e.position ∧
      (∃ more ts, scan (String.ofList (u ++ more)) = .ok ts) ∧
      ∀ more, scan (String.ofList (u ++ c :: more)) = .error e := by
  cases hfault with
  | @character c rest _ herror hfirst =>
    refine ⟨text front, c, rest, rfl, ?_, h.cut_of_refused rfl fun more => ?_⟩
    · rcases herror with rfl | rfl <;> rfl
    · exact scanFrom_cons_error (hfirst more) inner
  | @close rest hinner =>
    subst hinner
    exact ⟨text front, ')', rest, rfl, rfl,
      h.cut_of_refused rfl fun more => scanFrom_close _ last more⟩
  | @point whole rest hwhole hdigit =>
    cases rest with
    | nil => cases hnone
    | cons c rest =>
      refine ⟨text front ++ (whole ++ ['.']), c, rest, by simp, Position.advance_append .., ?_,
        fun more => h.scan_no_digit hwhole hdigit⟩
      obtain ⟨more, ts, -, hts⟩ := h.exists_scan_digit hwhole
      exact ⟨more, ts, hts⟩
  | group hdepth => cases hnone

/-- A text that ends too early can be completed, behind a point only by a digit. -/
theorem Passed.end_of_fault {expected : KindSet}
    (h : Passed .start 0 none front rest inner last)
    (hfault : Fault (Position.start.advance (text front)) inner last rest
      (.unexpectedEnd expected p)) :
    Position.start.advance (text front ++ rest) = p ∧
      (∃ more ts, more ≠ [] ∧ scan (String.ofList (text front ++ rest ++ more)) = .ok ts) ∧
      ((EndsInPoint (text front ++ rest) ∧ expected = .ofList [.number] ∧
          ∀ more ts, scan (String.ofList (text front ++ rest ++ more)) = .ok ts →
            ∃ c ∈ more.head?, c.isDigit = true) ∨
        ¬EndsInPoint (text front ++ rest) ∧ expected = .ofList [.closeBrace] ∧
          (text front ++ rest).count ')' < (text front ++ rest).count '(') := by
  generalize he : LexicalError.unexpectedEnd expected p = e at hfault
  cases hfault with
  | character herror _ => rcases herror with herror | herror <;> cases he.trans herror
  | close _ => cases he
  | @point whole rest hwhole hdigit =>
    cases rest with
    | cons c rest => cases he
    | nil =>
      obtain ⟨rfl, rfl⟩ := LexicalError.unexpectedEnd.inj he
      refine ⟨Position.advance_append .., h.exists_scan_digit hwhole,
        .inl ⟨⟨text front, whole, rfl, hwhole⟩, rfl, fun more ts hts => ?_⟩⟩
      by_contra hother
      have hstop : ∀ c ∈ more.head?, c.isDigit = false :=
        fun c hc => Bool.eq_false_iff.mpr fun hdigit => hother ⟨c, hc, hdigit⟩
      rw [h.scan_no_digit hwhole hstop] at hts
      cases hts
  | group hdepth =>
    obtain ⟨rfl, rfl⟩ := LexicalError.unexpectedEnd.inj he
    rw [List.append_nil]
    refine ⟨rfl, ?_, .inr ⟨not_endsInPoint_text h.spelled, rfl, ?_⟩⟩
    · obtain ⟨ts, hts⟩ := h.exists_scan (beginsLike_ends _ inner)
        (exists_scanFrom_ends _ inner last)
      refine ⟨List.replicate inner ')', ts, ?_, hts⟩
      simpa using hdepth
    · have hcounted := h.counted
      obtain ⟨hopenings, hclosings⟩ := count_text h.spelled
      omega

end Sources

/-- A fault of the scan lies as early as it can. In front of it stands the beginning of an accepted
source, and no accepted source goes on with the character at the fault: every source that does fails
in the same way. A source that ends too early is the beginning of an accepted one. If it ends in a
point behind digits, a digit has to come next, and otherwise it has opened more groups than it has
closed. -/
theorem scan_error_tells_extensions {source : String} {e : LexicalError}
    (h : scan source = .error e) :
    ((∀ expected p, e ≠ .unexpectedEnd expected p) →
      ∃ u c v, source.toList = u ++ c :: v ∧ Position.start.advance u = e.position ∧
        (∀ u' v', source.toList = u' ++ v' → Position.start.advance u' = e.position → u' = u) ∧
        (∃ more ts, scan (String.ofList (u ++ more)) = .ok ts) ∧
        ∀ more, scan (String.ofList (u ++ c :: more)) = .error e) ∧
    ∀ expected p, e = .unexpectedEnd expected p →
      Position.start.advance source.toList = p ∧
      (∃ more ts, more ≠ "" ∧ scan (source ++ more) = .ok ts) ∧
      (EndsInPoint source.toList → expected = .ofList [.number] ∧
        ∀ more ts, scan (source ++ more) = .ok ts →
          ∃ c ∈ more.toList.head?, c.isDigit = true) ∧
      (¬EndsInPoint source.toList → expected = .ofList [.closeBrace] ∧
        source.toList.count ')' < source.toList.count '(') := by
  obtain ⟨front, rest, inner, last, hsource, hpassed, hfault⟩ := exists_fault h
  constructor
  · intro hnoEnd
    have hnone : e.expected = none := by
      cases e with
      | unexpectedEnd expected p => exact absurd rfl (hnoEnd expected p)
      | unknownToken text p => rfl
      | unexpectedToken text p => rfl
      | unexpectedCloseBrace p => rfl
    obtain ⟨u, c, v, hsplit, hplace, hbegins, hrefused⟩ := hpassed.cut_of_fault hfault hnone
    rw [← hsource] at hsplit
    refine ⟨u, c, v, hsplit, hplace, fun u' v' hsplit' hplace' => ?_, hbegins, hrefused⟩
    exact (Position.split_unique (hsplit'.symm.trans hsplit) (hplace'.trans hplace.symm)).1
  · rintro expected p rfl
    obtain ⟨hplace, ⟨more, ts, hmore, hts⟩, hcases⟩ := hpassed.end_of_fault hfault
    have htext : ∀ more, source ++ more = String.ofList (text front ++ rest ++ more.toList) := by
      intro more
      rw [← hsource, String.ofList_append, String.ofList_toList, String.ofList_toList]
    rw [hsource]
    refine ⟨hplace, ⟨String.ofList more, ts, ?_, ?_⟩, fun hpoint => ?_, fun hpoint => ?_⟩
    · simpa using hmore
    · rw [htext, String.toList_ofList]
      exact hts
    · rcases hcases with ⟨-, hexpected, hdigit⟩ | ⟨hnot, -⟩
      · refine ⟨hexpected, fun more ts hok => hdigit more.toList ts ?_⟩
        rw [← htext]
        exact hok
      · exact absurd hpoint hnot
    · rcases hcases with ⟨hends, -⟩ | ⟨-, hexpected, hcount⟩
      · exact absurd hends hpoint
      · exact ⟨hexpected, hcount⟩

/-- A space stands behind a point inside a group; without it the source ends there. -/
theorem scan_spaceBehindPoint :
    scan "2*(1. 5)" = .error (.unexpectedToken " " ⟨6, 1⟩) ∧
      (∃ more ts, scan (String.ofList (['2', '*', '(', '1', '.'] ++ more)) = .ok ts) ∧
      (∀ more, scan (String.ofList (['2', '*', '(', '1', '.'] ++ ' ' :: more)) =
        .error (.unexpectedToken " " ⟨6, 1⟩)) ∧
      scan "2*(1." = .error (.unexpectedEnd (.ofList [.number]) ⟨6, 1⟩) ∧
      ∀ more ts, scan ("2*(1." ++ more) = .ok ts → ∃ c ∈ more.toList.head?, c.isDigit = true := by
  have hspace : scan "2*(1. 5)" = .error (.unexpectedToken " " ⟨6, 1⟩) := by cbv
  have hend : scan "2*(1." = .error (.unexpectedEnd (.ofList [.number]) ⟨6, 1⟩) := by cbv
  obtain ⟨u, c, v, hsplit, -, hunique, hbegins, hrefused⟩ :=
    (scan_error_tells_extensions hspace).1 (by simp)
  obtain rfl := hunique ['2', '*', '(', '1', '.'] [' ', '5', ')'] (by decide) rfl
  obtain ⟨rfl, -⟩ := List.cons.inj (List.append_cancel_left
    (show ['2', '*', '(', '1', '.'] ++ [' ', '5', ')'] = _ ++ c :: v from hsplit))
  obtain ⟨-, -, hpoint, -⟩ := (scan_error_tells_extensions hend).2 _ _ rfl
  have hends : EndsInPoint "2*(1.".toList := ⟨['2', '*', '('], ['1'], by decide, by simp, by simp⟩
  exact ⟨hspace, hbegins, hrefused, hend, (hpoint hends).2⟩

end Token

end Calculator
