import Calculator.Proofs.Agreement
import Calculator.Proofs.Heights
import Calculator.Proofs.Prefixes

/-!
Where an error points. A place belongs to one prefix of the source only, so an error that knows its
place cuts the source in two. What stands behind the cut is told by the stage that fails: the
character that cannot be read, the token that cannot stand where it does, the operator that cannot
be applied, or nothing but whitespace.
-/
namespace Calculator

open Grammar

namespace Position

variable {p : Position} {u v u' v' : List Char}

theorem offset_advance (p : Position) {text : List Char} (h : '\n' ∉ text) :
    (p.advance text).offset = p.offset + text.length := by
  induction text generalizing p with
  | nil => rfl
  | cons c text ih =>
    have hc : c ≠ '\n' := by
      rintro rfl
      exact h List.mem_cons_self
    rw [advance_cons, ih _ fun hmem => h (List.mem_cons_of_mem c hmem), next, if_neg hc,
      List.length_cons]
    simp only
    omega

/-- Only an empty text ends where it begins. -/
theorem eq_nil_of_advance_eq {text : List Char} (h : p.advance text = p) : text = [] := by
  have hline := advance_line p text
  rw [h] at hline
  have hnone : '\n' ∉ text := List.count_eq_zero.mp (by omega)
  have hoffset := offset_advance p hnone
  rw [h] at hoffset
  exact List.length_eq_zero_iff.mp (by omega)

theorem eq_of_advance_append_eq (h : p.advance (u ++ v) = p.advance u) : v = [] := by
  rw [advance_append] at h
  exact eq_nil_of_advance_eq h

/-- No two prefixes of a text end at the same place. -/
theorem split_unique (hsplit : u ++ v = u' ++ v') (h : p.advance u = p.advance u') :
    u = u' ∧ v = v' := by
  rcases List.append_eq_append_iff.mp hsplit with ⟨w, rfl, rfl⟩ | ⟨w, rfl, rfl⟩
  · have hw : w = [] := eq_of_advance_append_eq h.symm
    simp [hw]
  · have hw : w = [] := eq_of_advance_append_eq h
    simp [hw]

end Position

namespace Kind.Spells

variable {k : Kind} {text : List Char} {c : Char}

/-- The characters of a spelling: digits and a point, blanks, or the one symbol that it is. -/
theorem mem_cases (h : k.Spells text) (hc : c ∈ text) :
    (k.isOperand = true ∧ (c.isDigit = true ∨ c = '.')) ∨
      (k = .whitespace ∧ Lexeme.isBlank c = true) ∨
      (k.isOperand = false ∧ k ≠ .whitespace ∧ text = [c] ∧ Lexeme.isBlank c = false) := by
  cases k
  case number => exact .inl ⟨rfl, .inl (h.2 c hc)⟩
  case decimal =>
    obtain ⟨whole, fraction, rfl, hwhole, hfraction⟩ := h
    rcases List.mem_append.mp hc with hc | hc
    · exact .inl ⟨rfl, .inl (hwhole.2 c hc)⟩
    rcases List.mem_cons.mp hc with hc | hc
    · exact .inl ⟨rfl, .inr hc⟩
    · exact .inl ⟨rfl, .inl (hfraction.2 c hc)⟩
  case whitespace => exact .inr (.inl ⟨rfl, Lexeme.isBlank_iff.mpr (h.2 c hc)⟩)
  all_goals
    obtain rfl := h
    obtain rfl := List.mem_singleton.mp hc
    exact .inr (.inr ⟨rfl, by decide, rfl, by decide⟩)

theorem isBlank_eq_false (h : k.Spells text) (hk : k ≠ .whitespace) (hc : c ∈ text) :
    Lexeme.isBlank c = false := by
  rcases h.mem_cases hc with ⟨-, hdigit | rfl⟩ | ⟨hblank, -⟩ | ⟨-, -, -, hblank⟩
  · by_contra hblank
    rw [Lexeme.isDigit_of_isBlank (by simpa using hblank)] at hdigit
    cases hdigit
  · decide
  · exact absurd hblank hk
  · exact hblank

/-- A brace is written for a brace and nowhere else. -/
theorem count_eq (h : k.Spells text) {brace : Kind} {c : Char}
    (hbrace : brace = .openBrace ∧ c = '(' ∨ brace = .closeBrace ∧ c = ')') :
    text.count c = if k = brace then 1 else 0 := by
  have hdigit : c.isDigit = false ∧ c ≠ '.' ∧ Lexeme.isBlank c = false := by
    rcases hbrace with ⟨-, rfl⟩ | ⟨-, rfl⟩ <;> decide
  have hnone : k.isOperand = true ∨ k = .whitespace → text.count c = 0 := by
    intro hk
    refine List.count_eq_zero.mpr fun hc => ?_
    rcases h.mem_cases hc with ⟨-, hliteral⟩ | ⟨-, hblank⟩ | ⟨hoperand, hwhite, -, -⟩
    · simp [hdigit] at hliteral
    · simp [hdigit] at hblank
    · simp [hoperand, hwhite] at hk
  by_cases hk : k.isOperand = true ∨ k = .whitespace
  · rw [hnone hk, if_neg]
    rintro rfl
    rcases hbrace with ⟨rfl, -⟩ | ⟨rfl, -⟩ <;> simp [isOperand] at hk
  · rcases hbrace with ⟨rfl, rfl⟩ | ⟨rfl, rfl⟩ <;>
      cases k <;> first | (exact absurd (by decide) hk) | (obtain rfl := h; rfl)

end Kind.Spells

/-- What an error of the characters says about the text behind its place, and about the text in
front of it, which begins inside `depth` open groups. -/
def LexicalError.Marks (depth : Nat) (u v : List Char) : LexicalError → Prop
  | unknownToken payload _ | unexpectedToken payload _ =>
    ∃ c rest, v = c :: rest ∧ payload = String.singleton c
  | unexpectedCloseBrace _ => (∃ rest, v = ')' :: rest) ∧ u.count ')' = u.count '(' + depth
  | unexpectedEnd _ _ => v = []

/-- An error of the order of the tokens is about the first token that cannot follow those in front
of it, or about the end, which then stands behind the last token. -/
def SyntaxError.Marks (ts : List Token) (u v : List Char) : SyntaxError → Prop
  | unexpectedToken kind expected _ =>
    ∃ front t rest s, ts = front ++ t :: rest ∧ t.kind = kind ∧
      advance .initial (Token.significant front) = .ok s ∧ s.expected = expected ∧
      kind ∉ expected ∧ u = Token.text front ∧ v = t.lexeme.toList ++ Token.text rest
  | unexpectedEnd _ _ =>
    (∀ c ∈ v, c = ' ' ∨ c = '\t' ∨ c = '\r' ∨ c = '\n') ∧
      ∀ c ∈ u.getLast?, ¬(c = ' ' ∨ c = '\t' ∨ c = '\r' ∨ c = '\n')

/-- The token of kind `k` that stands between `u` and the rest of the text, and begins with
`symbol`, is the one at which the execution meets a divisor of zero. -/
def Postfix.RefusesAt (k : Kind) (symbol : Char) (ts : List Token) (u v : List Char) : Prop :=
  ∃ front op rest, ts = front ++ op :: rest ∧ op.kind = k ∧ u = Token.text front ∧
    v = symbol :: Token.text rest ∧
    ∃ p before after stack, Postfix.parse ts = .ok p ∧ p.tokens = before ++ op :: after ∧
      Postfix.Reaches before stack ∧ Postfix.ZeroDivisor op stack

def RuntimeError.Marks (ts : List Token) (u v : List Char) : RuntimeError → Prop
  | divisionByZero _ => Postfix.RefusesAt .div '/' ts u v
  | moduloByZero _ => Postfix.RefusesAt .mod '%' ts u v
  | malformedPostfix _ => False

def Error.Marks (source : String) (u v : List Char) : Error → Prop
  | lexical e => e.Marks 0 u v
  | syntactic e => ∃ ts, Token.scan source = .ok ts ∧ e.Marks ts u v
  | runtime e _ => ∃ ts, Token.scan source = .ok ts ∧ e.Marks ts u v

theorem Lexeme.missingDigit_marks (depth : Nat) (p : Position) (u v : List Char) :
    (missingDigit p v).position = p ∧ (missingDigit p v).Marks depth u v := by
  cases v with
  | nil => exact ⟨rfl, rfl⟩
  | cons c rest => exact ⟨rfl, c, rest, rfl, rfl⟩

namespace Token

/-- The tokens of a text show how many groups it opens and closes. -/
theorem count_text {front : List Token}
    (hspelled : ∀ t ∈ front, t.kind.Spells t.lexeme.toList) :
    (text front).count '(' = openings front ∧ (text front).count ')' = closings front := by
  induction front with
  | nil => exact ⟨rfl, rfl⟩
  | cons t front ih =>
    obtain ⟨hspells, hspelled⟩ := List.forall_mem_cons.mp hspelled
    obtain ⟨hopenings, hclosings⟩ := ih hspelled
    have htext : text (t :: front) = t.lexeme.toList ++ text front := rfl
    rw [htext, List.count_append, List.count_append, hopenings, hclosings, openings_cons,
      closings_cons, hspells.count_eq (.inl ⟨rfl, rfl⟩), hspells.count_eq (.inr ⟨rfl, rfl⟩)]
    exact ⟨Nat.add_comm _ _, Nat.add_comm _ _⟩

/-- What has been read stands in front of the fault; a group that is ended where none is open closes
more groups than have been opened. -/
theorem scan_marks {source : String} {e : LexicalError} (h : scan source = .error e) :
    ∃ u v, source.toList = u ++ v ∧ Position.start.advance u = e.position ∧ e.Marks 0 u v := by
  obtain ⟨front, rest, inner, last, hsource, hpassed, hfault⟩ := exists_fault h
  cases hfault with
  | @character c rest _ herror _ =>
    refine ⟨text front, c :: rest, hsource, ?_, ?_⟩
    · rcases herror with rfl | rfl <;> rfl
    · rcases herror with rfl | rfl <;> exact ⟨c, rest, rfl, rfl⟩
  | @close rest hinner =>
    refine ⟨text front, ')' :: rest, hsource, rfl, ⟨rest, rfl⟩, ?_⟩
    obtain ⟨hopenings, hclosings⟩ := count_text hpassed.spelled
    have hcounted := hpassed.counted
    omega
  | @point whole rest _ _ =>
    obtain ⟨hplace, hmarks⟩ := Lexeme.missingDigit_marks 0
      ((Position.start.advance (text front)).advance (whole ++ ['.']))
      (text front ++ (whole ++ ['.'])) rest
    refine ⟨_, rest, ?_, ?_, hmarks⟩
    · rw [hsource, List.append_assoc, List.append_assoc, List.singleton_append]
    · rw [hplace, Position.advance_append]
  | group _ => exact ⟨text front, [], hsource, rfl, rfl⟩

section Scans

variable {source : String} {ts : List Token}

/-- Around any of its tokens the source is cut at the place of the token. -/
theorem cut_of_scan (h : scan source = .ok ts) {front rest : List Token} {t : Token}
    (hts : ts = front ++ t :: rest) :
    source.toList = text front ++ (t.lexeme.toList ++ text rest) ∧
      Position.start.advance (text front) = t.position := by
  obtain ⟨hsource, hsegmented⟩ := scan_eq_ok_iff.mp h
  refine ⟨?_, (hsegmented.placed front t rest hts).symm⟩
  rw [hsource, hts]
  simp [text]

theorem blank_of_mem_text {blanks : List Token} (hblank : significant blanks = [])
    (hspelled : ∀ t ∈ blanks, t.kind.Spells t.lexeme.toList) {c : Char} (hc : c ∈ text blanks) :
    c = ' ' ∨ c = '\t' ∨ c = '\r' ∨ c = '\n' := by
  obtain ⟨t, ht, hmem⟩ := List.mem_flatMap.mp hc
  have hkind : t.kind = .whitespace := by
    have hfilter := List.filter_eq_nil_iff.mp hblank t ht
    simpa [isWhitespace] using hfilter
  have hspells := hspelled t ht
  rw [hkind] at hspells
  exact hspells.2 c hmem

/-- The check ends behind the last significant token, and in front of all whitespace if there is
none. -/
theorem stop_of_advance {s s' : State} (h : advance s ts = .ok s') :
    s'.stop = (ts.getLast?.map stop).getD s.stop := by
  induction ts generalizing s with
  | nil =>
    cases h
    rfl
  | cons t ts ih =>
    obtain ⟨next, hstep, hrun⟩ := advance_cons_eq_ok_iff.mp h
    obtain ⟨-, rfl⟩ := State.step_eq_ok_iff.mp hstep
    rw [ih hrun, List.getLast?_cons]
    cases ts.getLast? with
    | none => rfl
    | some u => rfl

theorem marks_of_refused (h : scan source = .ok ts) {front rest : List Token} {t : Token}
    {s : State} {e : SyntaxError} (hts : significant ts = front ++ t :: rest)
    (hrun : advance .initial front = .ok s) (hstep : s.step t = .error e) :
    ∃ u v, source.toList = u ++ v ∧ Position.start.advance u = e.position ∧ e.Marks ts u v := by
  obtain ⟨hrefused, rfl⟩ := State.step_eq_error_iff.mp hstep
  obtain ⟨front', rest', hsplit, rfl⟩ := exists_split_of_significant hts
  obtain ⟨hsource, hplace⟩ := cut_of_scan h hsplit
  exact ⟨text front', _, hsource, hplace, front', t, rest', s, hsplit, rfl, hrun, rfl, hrefused,
    rfl, rfl⟩

theorem marks_of_end (h : scan source = .ok ts) {s : State}
    (hrun : advance .initial (significant ts) = .ok s) (expected : KindSet) :
    ∃ u v, source.toList = u ++ v ∧ Position.start.advance u = s.stop ∧
      (SyntaxError.unexpectedEnd expected s.stop).Marks ts u v := by
  have hspelled := (scan_iff_scanned.mp h).spelled
  have hstop := stop_of_advance hrun
  rcases List.eq_nil_or_concat (significant ts) with hnone | ⟨front, t, hlast⟩
  · rw [hnone] at hstop
    refine ⟨[], source.toList, rfl, hstop.symm, fun c hc => ?_, by simp⟩
    rw [(scan_eq_ok_iff.mp h).1] at hc
    exact blank_of_mem_text hnone hspelled hc
  · rw [List.concat_eq_append] at hlast
    obtain ⟨front', blanks, hsplit, hfront⟩ := exists_split_of_significant hlast
    obtain ⟨hsource, hplace⟩ := cut_of_scan h hsplit
    have hmem : t ∈ significant ts := by simp [hlast]
    have hkind : t.kind ≠ .whitespace := by
      simpa [significant, isWhitespace] using (List.mem_filter.mp hmem).2
    have hspells := hspelled t (List.mem_of_mem_filter hmem)
    have hblanks : significant blanks = [] := by
      rw [hsplit, significant_append, hfront, significant_cons hkind] at hlast
      simpa using hlast
    refine ⟨text front' ++ t.lexeme.toList, text blanks, ?_, ?_, fun c hc => ?_, fun c hc => ?_⟩
    · rw [hsource, List.append_assoc]
    · rw [Position.advance_append, hplace, hstop, hlast]
      simp [stop]
    · refine blank_of_mem_text hblanks (fun u hu => hspelled u ?_) hc
      rw [hsplit]
      simp [hu]
    · rw [← Lexeme.isBlank_iff, Bool.not_eq_true]
      refine hspells.isBlank_eq_false hkind ?_
      have hlastChar : (text front' ++ t.lexeme.toList).getLast? = t.lexeme.toList.getLast? :=
        List.getLast?_append_of_ne_nil _ hspells.ne_nil
      rw [hlastChar] at hc
      exact List.mem_of_getLast? hc

theorem marks_of_check (h : scan source = .ok ts) {e : SyntaxError} (hcheck : check ts = .error e) :
    ∃ u v, source.toList = u ++ v ∧ Position.start.advance u = e.position ∧ e.Marks ts u v := by
  rcases check_eq_error_iff.mp hcheck with ⟨front, t, rest, s, hts, hrun, hstep⟩ | ⟨s, hrun, hend⟩
  · exact marks_of_refused h hts hrun hstep
  · rw [finish_of_scan h hrun hend]
    exact marks_of_end h hrun .operandStart

/-- The operator that is refused is one of the source's tokens. -/
theorem marks_of_execute (h : scan source = .ok ts) {p : Postfix} (hparse : Postfix.parse ts = .ok p)
    {r : Recorder} {e : RuntimeError} (hanswer : (p.execute r).value.answer = .error e) :
    ∃ u v, source.toList = u ++ v ∧ Position.start.advance u = e.position ∧ e.Marks ts u v := by
  obtain ⟨tree, hlist, hkind, hmem⟩ := Postfix.exists_tree_of_parse hparse
  obtain ⟨before, op, after, stack, hsplit, hreach, heffect⟩ :=
    Postfix.exists_of_execute_error hlist hkind hanswer
  have hsupplied := Postfix.supplied_of_postorder hkind (hlist.symm.trans hsplit) hreach
  have hop : op ∈ ts := by
    refine List.mem_of_mem_filter (hmem op ?_)
    rw [← hlist, hsplit]
    simp
  obtain ⟨front, rest, hts⟩ := List.append_of_mem hop
  obtain ⟨hsource, hplace⟩ := cut_of_scan h hts
  rcases (Postfix.effect_eq_error_iff hsupplied).mp heffect with ⟨hunreadable, -⟩ | ⟨hzero, rfl⟩
  · exact absurd hunreadable (readable_of_scan h hop)
  have hspells := (scan_iff_scanned.mp h).spelled op hop
  refine ⟨text front, op.lexeme.toList ++ text rest, hsource, ?_, ?_⟩
  · rw [hplace]
    unfold Postfix.refusal
    split <;> rfl
  · unfold Postfix.refusal
    rcases hzero.kind_cases with hdiv | hmod
    · rw [hdiv] at hspells
      have htext : op.lexeme.toList = ['/'] := hspells
      rw [if_pos hdiv]
      exact ⟨front, op, rest, hts, hdiv, rfl, by rw [htext]; rfl, p, before, after, stack, hparse,
        hsplit, hreach, hzero⟩
    · rw [hmod] at hspells
      have htext : op.lexeme.toList = ['%'] := hspells
      rw [if_neg (by rw [hmod]; decide)]
      exact ⟨front, op, rest, hts, hmod, rfl, by rw [htext]; rfl, p, before, after, stack, hparse,
        hsplit, hreach, hzero⟩

end Scans

end Token

theorem exists_marks {source : String} {debug : Bool} {e : Error}
    (h : evaluate source debug = .error e) :
    ∃ u v, source.toList = u ++ v ∧ Position.start.advance u = e.position ∧ e.Marks source u v := by
  obtain ⟨err, rfl, hscan⟩ | ⟨ts, hscan, ⟨err, rfl, hcheck⟩ | ⟨p, err, trace, rfl, hparse, hanswer⟩⟩ :=
    evaluate_error_cases h
  · exact Token.scan_marks hscan
  · obtain ⟨u, v, hsource, hplace, hmarks⟩ := Token.marks_of_check hscan hcheck
    exact ⟨u, v, hsource, hplace, ts, hscan, hmarks⟩
  · obtain ⟨u, v, hsource, hplace, hmarks⟩ := Token.marks_of_execute hscan hparse hanswer
    exact ⟨u, v, hsource, hplace, ts, hscan, hmarks⟩

/-- The place of an error belongs to one cut through the source, and the two parts are as the error
says. -/
theorem error_marks_cut {source : String} {debug : Bool} {e : Error}
    (h : evaluate source debug = .error e) :
    ∃ u v, source.toList = u ++ v ∧ Position.start.advance u = e.position ∧
      (∀ u' v', source.toList = u' ++ v' → Position.start.advance u' = e.position →
        u' = u ∧ v' = v) ∧
      e.Marks source u v := by
  obtain ⟨u, v, hsource, hplace, hmarks⟩ := exists_marks h
  refine ⟨u, v, hsource, hplace, ?_, hmarks⟩
  intro u' v' hsource' hplace'
  exact Position.split_unique (hsource'.symm.trans hsource) (hplace'.trans hplace.symm)

/-- An operator stands where an operand has to begin, on the second line and behind a tab. -/
theorem error_marks_misplacedTimes :
    evaluate "2 +\n\t* 3" false =
        .error (.syntactic (.unexpectedToken .mul .operandStart ⟨2, 2⟩)) ∧
      ∀ u v, "2 +\n\t* 3".toList = u ++ v → Position.start.advance u = ⟨2, 2⟩ →
        v = ['*', ' ', '3'] := by
  have hscan : Token.scan "2 +\n\t* 3" = .ok
      [⟨.number, "2", ⟨1, 1⟩⟩, ⟨.whitespace, " ", ⟨2, 1⟩⟩, ⟨.add, "+", ⟨3, 1⟩⟩,
        ⟨.whitespace, "\n\t", ⟨4, 1⟩⟩, ⟨.mul, "*", ⟨2, 2⟩⟩, ⟨.whitespace, " ", ⟨3, 2⟩⟩,
        ⟨.number, "3", ⟨4, 2⟩⟩] := by cbv
  have hevaluate : evaluate "2 +\n\t* 3" false =
      .error (.syntactic (.unexpectedToken .mul .operandStart ⟨2, 2⟩)) :=
    evaluate_of_check_error hscan rfl false
  obtain ⟨u, v, -, -, hunique, -⟩ := error_marks_cut hevaluate
  refine ⟨hevaluate, fun u' v' hsource hplace => ?_⟩
  have hcut := hunique ['2', ' ', '+', '\n', '\t'] ['*', ' ', '3'] (by decide) rfl
  exact (hunique u' v' hsource hplace).2.trans hcut.2.symm

end Calculator
