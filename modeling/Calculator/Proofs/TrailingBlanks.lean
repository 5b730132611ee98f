import Calculator.Proofs.Extensions
import Calculator.Proofs.Reports
import Calculator.Proofs.Respacing

/-!
Whitespace behind a text. It makes a last stretch of whitespace longer or becomes one, and the later
stages do not see it: they place the end of a text behind its last significant token. So only the
reports of the scan that a text ends too early can tell whether whitespace follows.
-/
namespace Calculator

/-- What the report that a text ends too early becomes when there is a gap behind the text: a group
that is still open is missed behind the gap, and where a digit is missed the gap is in its place. -/
def LexicalError.before (gap : List Char) : LexicalError → LexicalError
  | .unexpectedEnd expected p =>
    if expected = .ofList [.number] then Lexeme.missingDigit p gap
    else .unexpectedEnd expected (p.advance gap)
  | e => e

def Error.before (gap : List Char) : Error → Error
  | .lexical e => .lexical (e.before gap)
  | e => e

theorem Lexeme.missingDigit_append (p : Position) (rest gap : List Char) :
    missingDigit p (rest ++ gap) = (missingDigit p rest).before gap := by
  cases rest with
  | nil => simp [missingDigit, LexicalError.before]
  | cons c rest => rfl

namespace Token

variable {p : Position} {depth : Nat} {previous : Option Kind} {source gap : List Char}
  {e : LexicalError}

section Scans

/-- Blanks do not make a lexeme longer that is no whitespace, and none that stops before them. -/
theorem Blank.stops_append (hgap : Blank gap) {k : Kind} {rest : List Char}
    (h : Lexeme.Stops k rest) (hapart : k = .whitespace → rest ≠ []) :
    Lexeme.Stops k (rest ++ gap) := by
  cases rest with
  | cons c rest => exact h.of_beginsLike (beginsLike_cons c rest (rest ++ gap))
  | nil =>
    have hhead : ∀ c ∈ gap.head?, c.isDigit = false ∧ c ≠ '.' := by
      intro c hc
      have hblank : Lexeme.isBlank c = true :=
        Lexeme.isBlank_iff.mpr (hgap c (List.mem_of_mem_head? hc))
      refine ⟨Lexeme.isDigit_of_isBlank hblank, ?_⟩
      rintro rfl
      cases hblank
    cases k
    case number => exact hhead
    case decimal => exact fun c hc => (hhead c hc).1
    case whitespace => exact absurd rfl (hapart rfl)
    all_goals trivial

/-- A text of blanks has no significant tokens. -/
theorem scanFrom_blank (hgap : Blank gap) (p : Position) (depth : Nat) (previous : Option Kind) :
    (scanFrom p depth previous gap).map significant =
      if depth = 0 then .ok []
      else .error (.unexpectedEnd (.ofList [.closeBrace]) (p.advance gap)) := by
  cases gap with
  | nil =>
    rw [scanFrom_nil]
    split <;> rfl
  | cons c gap =>
    have hminus : c :: gap ≠ ['-'] := by
      rintro hminus
      rw [hminus] at hgap
      exact absurd (hgap '-' List.mem_cons_self) (by decide)
    have hfirst : Lexeme.first previous p c gap = .ok ⟨.whitespace, c :: gap, []⟩ :=
      Lexeme.first_of_spells ⟨List.cons_ne_nil c gap, hgap⟩ nofun (fun h => absurd h hminus)
        (List.append_nil _).symm
    rw [scanFrom_cons_ok hfirst, if_neg (by simp), scanFrom_nil]
    change Except.map _ (Except.map _ (if depth = 0 then _ else _)) = _
    split <;> rfl

theorem map_significant_cons (t : Token) (result : Except LexicalError (List Token)) :
    (result.map (t :: ·)).map significant =
      (result.map significant).map (significant [t] ++ ·) := by
  cases result with
  | error e => rfl
  | ok ts => exact congrArg Except.ok (significant_append [t] ts)

/-- Where the scan finds a fault in front of the gap, it finds the same fault with the gap. -/
theorem Fault.scanFrom_append (h : Fault p depth previous source e) (hsource : source ≠ [])
    (hgap : Blank gap) : scanFrom p depth previous (source ++ gap) = .error (e.before gap) := by
  cases h with
  | @character c rest e herror hfirst =>
    have hsame : e.before gap = e := by
      rcases herror with rfl | rfl <;> rfl
    rw [hsame]
    exact scanFrom_cons_error (hfirst (rest ++ gap)) depth
  | @close rest hdepth =>
    subst hdepth
    exact scanFrom_close p previous (rest ++ gap)
  | @point whole rest hwhole hdigit =>
    have hmore : ∀ c ∈ (rest ++ gap).head?, c.isDigit = false :=
      hgap.stops_append (k := .decimal) hdigit nofun
    rw [List.append_assoc, List.cons_append, scanFrom_point hwhole hmore,
      Lexeme.missingDigit_append]
  | group hdepth => exact absurd rfl hsource

/-- With a gap behind the text, the scan finds the same significant tokens, and the same fault unless
the text ends too early. The induction is along the scan; the gap is read when the last lexeme has
been, or together with it if that is whitespace. -/
theorem scanFrom_append_blank (hgap : Blank gap) (p : Position) (depth : Nat)
    (previous : Option Kind) (source : List Char) :
    (scanFrom p depth previous (source ++ gap)).map significant =
      ((scanFrom p depth previous source).map significant).mapError (LexicalError.before gap) := by
  induction hlength : source.length using Nat.strong_induction_on generalizing p depth previous
    source with
  | _ length ih =>
    cases source with
    | nil =>
      rw [List.nil_append, scanFrom_blank hgap, scanFrom_nil]
      split <;> rfl
    | cons c tail =>
      cases hfirst : Lexeme.first previous p c tail with
      | error e =>
        rw [scanFrom_cons_error hfirst,
          (fault_of_first hfirst).scanFrom_append (List.cons_ne_nil c tail) hgap]
        rfl
      | ok l =>
        obtain ⟨hspells, hstops, hminus⟩ := Lexeme.first_spec hfirst
        have hsplit := Lexeme.text_append_rest hfirst
        by_cases hlast : l.kind = .whitespace ∧ l.rest = []
        · rw [hlast.1] at hspells
          rw [hlast.2, List.append_nil] at hsplit
          rw [hsplit] at hspells
          have hall : Blank (c :: tail ++ gap) := List.forall_mem_append.mpr ⟨hspells.2, hgap⟩
          rw [scanFrom_blank hall, scanFrom_blank hspells.2, Position.advance_append]
          split <;> rfl
        · have hapart : l.kind = .whitespace → l.rest ≠ [] := fun hk hnil => hlast ⟨hk, hnil⟩
          have hlonger : c :: (tail ++ gap) = l.text ++ (l.rest ++ gap) := by
            rw [← List.append_assoc, hsplit, List.cons_append]
          have hsame : Lexeme.first previous p c (tail ++ gap) =
              .ok ⟨l.kind, l.text, l.rest ++ gap⟩ :=
            Lexeme.first_of_spells hspells (hgap.stops_append hstops hapart) hminus hlonger
          rw [List.cons_append, scanFrom_cons_ok hsame, scanFrom_cons_ok hfirst]
          by_cases hclose : l.kind = .closeBrace ∧ depth = 0
          · rw [if_pos hclose, if_pos hclose]
            rfl
          · have hshort : l.rest.length < length := hlength ▸ Lexeme.length_rest_lt hfirst
            have hrest := ih _ hshort (p.advance l.text) (l.kind.depthAfter depth)
              (lookback previous l.kind) l.rest rfl
            rw [if_neg hclose, if_neg hclose]
            simp only [map_significant_cons, hrest]
            cases scanFrom (p.advance l.text) (l.kind.depthAfter depth) (lookback previous l.kind)
              l.rest <;> rfl

/-- A scan that ends too early misses the end of a group or a digit. -/
theorem expected_of_scan_end {source : String} {expected : KindSet}
    (h : scan source = .error (.unexpectedEnd expected p)) :
    expected = .ofList [.closeBrace] ∨ expected = .ofList [.number] := by
  obtain ⟨front, rest, inner, last, -, -, hfault⟩ := exists_fault h
  generalize he : LexicalError.unexpectedEnd expected p = e at hfault
  cases hfault with
  | character herror _ => rcases herror with rfl | rfl <;> cases he
  | close _ => cases he
  | @point whole rest _ _ =>
    cases rest with
    | nil => exact .inr (LexicalError.unexpectedEnd.inj he).1
    | cons c rest => cases he
  | group _ => exact .inl (LexicalError.unexpectedEnd.inj he).1

end Scans

end Token

section Answers

variable {source source' : String} {ts ts' : List Token} {blanks : String}

theorem parse_eq_of_significant (h : Token.significant ts' = Token.significant ts) :
    Postfix.parse ts' = Postfix.parse ts := by
  rw [Postfix.parse, Postfix.parse, Grammar.check, Grammar.check, Postfix.arrange, Postfix.arrange,
    h]

/-- Of the tokens of a text, the answer depends on the significant ones only. -/
theorem evaluate_eq_of_significant (hscan : Token.scan source = .ok ts)
    (hscan' : Token.scan source' = .ok ts') (h : Token.significant ts' = Token.significant ts)
    (debug : Bool) : evaluate source' debug = evaluate source debug := by
  simp only [evaluate, evaluateLogged, hscan, hscan', Logged.value_bind, parse_eq_of_significant h]

theorem mapError_before_of_no_end {answer : Except Error Evaluation} {gap : List Char}
    (h : ∀ expected p, answer ≠ .error (.lexical (.unexpectedEnd expected p))) :
    answer.mapError (Error.before gap) = answer := by
  cases answer with
  | ok value => rfl
  | error e =>
    cases e with
    | lexical err =>
      cases err with
      | unexpectedEnd expected p => exact absurd rfl (h expected p)
      | unknownToken text p => rfl
      | unexpectedToken text p => rfl
      | unexpectedCloseBrace p => rfl
    | syntactic err => rfl
    | runtime err trace => rfl

/-- Only the scan finds that a text ends too early. -/
theorem evaluate_before_eq_self (hscan : Token.scan source = .ok ts) (gap : List Char)
    (debug : Bool) :
    (evaluate source debug).mapError (Error.before gap) = evaluate source debug := by
  refine mapError_before_of_no_end fun expected p hend => ?_
  rw [scan_of_evaluate_lexical hend] at hscan
  cases hscan

/-- Whitespace behind a text moves the report of the scan that it ends too early, and changes nothing
else in its answer. -/
theorem evaluate_append_eq (hblank : Token.Blank blanks.toList) (source : String) (debug : Bool) :
    evaluate (source ++ blanks) debug =
      (evaluate source debug).mapError (Error.before blanks.toList) := by
  have hscan := Token.scanFrom_append_blank hblank .start 0 none source.toList
  rw [← String.toList_append] at hscan
  change (Token.scan (source ++ blanks)).map _ = ((Token.scan source).map _).mapError _ at hscan
  cases hfront : Token.scan source with
  | error e =>
    rw [hfront] at hscan
    cases hlong : Token.scan (source ++ blanks) with
    | ok ts =>
      rw [hlong] at hscan
      cases hscan
    | error e' =>
      rw [hlong] at hscan
      obtain rfl : e' = e.before blanks.toList := Except.error.inj hscan
      rw [evaluate_of_scan_error hfront, evaluate_of_scan_error hlong]
      rfl
  | ok ts =>
    rw [hfront] at hscan
    cases hlong : Token.scan (source ++ blanks) with
    | error e =>
      rw [hlong] at hscan
      cases hscan
    | ok ts' =>
      rw [hlong] at hscan
      rw [evaluate_before_eq_self hfront]
      exact evaluate_eq_of_significant hfront hlong (Except.ok.inj hscan) debug

end Answers

/-- Whitespace behind a text does not change its answer, unless the scan reports that the text ends
too early. Where the end of a group is missed, it is then missed behind the whitespace; where a digit
is missed, the first character of the whitespace is reported in its place. So the line ends that are
cut off in front of an evaluation matter for these two reports only. -/
theorem evaluate_append_blanks :
    (∀ (source blanks : String) (debug : Bool), blanks ≠ "" →
      (∀ c ∈ blanks.toList, c = ' ' ∨ c = '\t' ∨ c = '\r' ∨ c = '\n') →
      ((∀ expected p, evaluate source debug ≠ .error (.lexical (.unexpectedEnd expected p))) →
        evaluate (source ++ blanks) debug = evaluate source debug) ∧
      (∀ p, evaluate source debug = .error (.lexical (.unexpectedEnd (.ofList [.closeBrace]) p)) →
        evaluate (source ++ blanks) debug =
          .error (.lexical (.unexpectedEnd (.ofList [.closeBrace]) (p.advance blanks.toList)))) ∧
      (∀ p, evaluate source debug = .error (.lexical (.unexpectedEnd (.ofList [.number]) p)) →
        ∃ c rest, blanks.toList = c :: rest ∧
          evaluate (source ++ blanks) debug =
            .error (.lexical (.unexpectedToken (String.singleton c) p))) ∧
      ∀ expected p, evaluate source debug = .error (.lexical (.unexpectedEnd expected p)) →
        expected = .ofList [.closeBrace] ∨ expected = .ofList [.number]) ∧
    ∀ (input : CommandLine.Source) (text : String) (debug : Bool), input.read = .ok text →
      CommandLine.report input debug = CommandLine.reportAnswer debug (evaluate text debug) ∨
        ∃ p, evaluate (CommandLine.trimLineEnds text) debug =
            .error (.lexical (.unexpectedEnd (.ofList [.closeBrace]) p)) ∨
          evaluate (CommandLine.trimLineEnds text) debug =
            .error (.lexical (.unexpectedEnd (.ofList [.number]) p)) := by
  constructor
  · intro source blanks debug hne hblanks
    have hanswer := evaluate_append_eq hblanks source debug
    refine ⟨fun hother => ?_, fun p hend => ?_, fun p hend => ?_, fun expected p hend => ?_⟩
    · rw [hanswer, mapError_before_of_no_end hother]
    · rw [hanswer, hend]
      rfl
    · obtain ⟨c, rest, htext⟩ : ∃ c rest, blanks.toList = c :: rest :=
        List.exists_cons_of_ne_nil fun hnil => hne (String.toList_eq_nil_iff.mp hnil)
      refine ⟨c, rest, htext, ?_⟩
      rw [hanswer, hend, htext]
      rfl
    · exact Token.expected_of_scan_end (scan_of_evaluate_lexical hend)
  · intro input text debug hread
    obtain ⟨ends, hsplit, hends, -⟩ := CommandLine.exists_ends text
    have hblank : Token.Blank ends.toList :=
      fun c hc => .inr (.inr (hends c hc))
    have hreport : CommandLine.report input debug =
        CommandLine.reportAnswer debug (evaluate (CommandLine.trimLineEnds text) debug) := by
      rw [CommandLine.report, hread]
    by_cases hend : ∃ expected p, evaluate (CommandLine.trimLineEnds text) debug =
        .error (.lexical (.unexpectedEnd expected p))
    · obtain ⟨expected, p, hend⟩ := hend
      rcases Token.expected_of_scan_end (scan_of_evaluate_lexical hend) with rfl | rfl
      · exact .inr ⟨p, .inl hend⟩
      · exact .inr ⟨p, .inr hend⟩
    · have hother : ∀ expected p, evaluate (CommandLine.trimLineEnds text) debug ≠
          .error (.lexical (.unexpectedEnd expected p)) :=
        fun expected p heq => hend ⟨expected, p, heq⟩
      have hanswer := evaluate_append_eq hblank (CommandLine.trimLineEnds text) debug
      rw [← hsplit, mapError_before_of_no_end hother] at hanswer
      exact .inl (by rw [hreport, hanswer])

/-- A line end behind an open group, one behind a point, and one behind an operator. -/
theorem evaluate_lineEndBehind :
    evaluate "2*(1" true = .error (.lexical (.unexpectedEnd (.ofList [.closeBrace]) ⟨5, 1⟩)) ∧
      evaluate ("2*(1" ++ "\r\n") true =
        .error (.lexical (.unexpectedEnd (.ofList [.closeBrace]) ⟨1, 2⟩)) ∧
      evaluate "2*(1." true = .error (.lexical (.unexpectedEnd (.ofList [.number]) ⟨6, 1⟩)) ∧
      evaluate ("2*(1." ++ "\r\n") true = .error (.lexical (.unexpectedToken "\r" ⟨6, 1⟩)) ∧
      evaluate "2*" true = .error (.syntactic (.unexpectedEnd .operandStart ⟨3, 1⟩)) ∧
      evaluate ("2*" ++ "\r\n") true =
        .error (.syntactic (.unexpectedEnd .operandStart ⟨3, 1⟩)) ∧
      CommandLine.report (.argument "2*\r\n") true =
        CommandLine.reportAnswer true (evaluate "2*\r\n" true) := by
  have hgroup : evaluate "2*(1" true =
      .error (.lexical (.unexpectedEnd (.ofList [.closeBrace]) ⟨5, 1⟩)) :=
    evaluate_of_scan_error (by cbv) true
  have hpoint : evaluate "2*(1." true =
      .error (.lexical (.unexpectedEnd (.ofList [.number]) ⟨6, 1⟩)) :=
    evaluate_of_scan_error (by cbv) true
  have htimes : evaluate "2*" true =
      .error (.syntactic (.unexpectedEnd .operandStart ⟨3, 1⟩)) := by
    have hscan : Token.scan "2*" = .ok [⟨.number, "2", ⟨1, 1⟩⟩, ⟨.mul, "*", ⟨2, 1⟩⟩] := by cbv
    exact evaluate_of_check_error hscan rfl true
  have hline : ∀ c ∈ "\r\n".toList, c = ' ' ∨ c = '\t' ∨ c = '\r' ∨ c = '\n' := by simp
  obtain ⟨hanswers, hreports⟩ := evaluate_append_blanks
  refine ⟨hgroup, (hanswers "2*(1" "\r\n" true (by decide) hline).2.1 _ hgroup, hpoint, ?_, htimes,
    ?_, ?_⟩
  · obtain ⟨c, rest, htext, hanswer⟩ :=
      (hanswers "2*(1." "\r\n" true (by decide) hline).2.2.1 _ hpoint
    obtain rfl : '\r' = c := (List.cons.inj (show ['\r', '\n'] = c :: rest from htext)).1
    exact hanswer
  · have hother : ∀ expected p,
        evaluate "2*" true ≠ .error (.lexical (.unexpectedEnd expected p)) := by
      intro expected p hend
      rw [htimes] at hend
      cases hend
    exact ((hanswers "2*" "\r\n" true (by decide) hline).1 hother).trans htimes
  · have htrim : CommandLine.trimLineEnds "2*\r\n" = "2*" := rfl
    refine (hreports (.argument "2*\r\n") "2*\r\n" true rfl).resolve_right ?_
    rintro ⟨p, hend | hend⟩ <;> rw [htrim, htimes] at hend <;> cases hend

end Calculator
