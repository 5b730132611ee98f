import Calculator.Proofs.Reading

/-!
Texts that differ in their whitespace only. The check and the answer see the significant tokens and
not their places, and what a scan demands of these tokens does not change with the whitespace
between them. So the tokens of a text may be written with any gaps, as long as no two literals come
to touch, and the new text means the same.
-/
namespace Calculator

open Grammar

namespace Grammar

def State.unplaced (s : State) : State := { s with stop := .start }

section Places

variable {s s' : State}

theorem State.eq_of_unplaced (h : s.unplaced = s'.unplaced) :
    s.expected = s'.expected ∧ s.depth = s'.depth := by
  have hexpected := congrArg State.expected h
  have hdepth := congrArg State.depth h
  exact ⟨hexpected, hdepth⟩

/-- By induction on the tokens: places go into the reports and nowhere else. -/
theorem advance_unplaced (h : s.unplaced = s'.unplaced) (ts : List Token) :
    ((advance s ts).map State.unplaced).mapError SyntaxError.unplaced =
      ((advance s' (ts.map Token.unplaced)).map State.unplaced).mapError SyntaxError.unplaced := by
  induction ts generalizing s s' with
  | nil => exact congrArg Except.ok h
  | cons t ts ih =>
    obtain ⟨hexpected, hdepth⟩ := State.eq_of_unplaced h
    rw [List.map_cons, advance, advance, State.step, State.step, ← hexpected, Token.kind_unplaced]
    by_cases hmem : t.kind ∈ s.expected
    · rw [if_pos hmem, if_pos hmem]
      refine ih ?_
      simp only [State.unplaced, State.after, Token.kind_unplaced, hdepth]
    · rw [if_neg hmem, if_neg hmem]
      rfl

theorem finish_unplaced (h : s.unplaced = s'.unplaced) :
    s.finish.mapError SyntaxError.unplaced = s'.finish.mapError SyntaxError.unplaced := by
  obtain ⟨hexpected, hdepth⟩ := State.eq_of_unplaced h
  unfold State.finish
  rw [← hexpected, ← hdepth]
  by_cases hmem : Kind.number ∈ s.expected
  · rw [if_pos hmem, if_pos hmem]
    rfl
  rw [if_neg hmem, if_neg hmem]
  by_cases hpos : 0 < s.depth
  · rw [if_pos hpos, if_pos hpos]
    rfl
  · rw [if_neg hpos, if_neg hpos]

theorem check_unplaced (ts : List Token) :
    (check ts).mapError SyntaxError.unplaced =
      (check ((Token.significant ts).map Token.unplaced)).mapError SyntaxError.unplaced := by
  have hsame : Token.significant ((Token.significant ts).map Token.unplaced) =
      (Token.significant ts).map Token.unplaced := by
    rw [Token.significant, List.filter_map]
    exact congrArg (List.map Token.unplaced) (List.filter_eq_self.mpr fun t ht =>
      (List.mem_filter.mp ht).2)
  have hrun := advance_unplaced (s := .initial) rfl (Token.significant ts)
  rw [check, check, hsame]
  cases hone : advance .initial (Token.significant ts) with
  | error e =>
    cases htwo : advance .initial ((Token.significant ts).map Token.unplaced) with
    | error e' =>
      rw [hone, htwo] at hrun
      exact congrArg Except.error (Except.error.inj hrun)
    | ok s' =>
      rw [hone, htwo] at hrun
      cases hrun
  | ok s =>
    cases htwo : advance .initial ((Token.significant ts).map Token.unplaced) with
    | error e' =>
      rw [hone, htwo] at hrun
      cases hrun
    | ok s' =>
      rw [hone, htwo] at hrun
      exact finish_unplaced (Except.ok.inj hrun)

end Places

end Grammar

/-- The same significant tokens, wherever they stand, have the same fault or the same phrase. -/
theorem check_unplaced_cases {ts ts' : List Token}
    (hsame : (Token.significant ts').map Token.unplaced =
      (Token.significant ts).map Token.unplaced) :
    (∃ e e', check ts = .error e ∧ check ts' = .error e' ∧ e'.unplaced = e.unplaced) ∨
      ∃ e e', Phrase.At .sum e ∧ e.yield = Token.significant ts ∧
        Phrase.At .sum e' ∧ e'.yield = Token.significant ts' ∧
        e'.tree.map Token.unplaced = e.tree.map Token.unplaced := by
  have hcheck : (check ts').mapError SyntaxError.unplaced =
      (check ts).mapError SyntaxError.unplaced := by
    rw [check_unplaced ts', check_unplaced ts, hsame]
  cases hone : check ts with
  | error e =>
    cases htwo : check ts' with
    | error e' =>
      rw [hone, htwo] at hcheck
      exact Or.inl ⟨e, e', rfl, rfl, Except.error.inj hcheck⟩
    | ok _ =>
      rw [hone, htwo] at hcheck
      cases hcheck
  | ok _ =>
    cases htwo : check ts' with
    | error e' =>
      rw [hone, htwo] at hcheck
      cases hcheck
    | ok _ =>
      obtain ⟨e, he, hyield⟩ := (Phrase.check_iff_exists_phrase ts).mp hone
      obtain ⟨e', he', hyield'⟩ := (Phrase.check_iff_exists_phrase ts').mp htwo
      exact Or.inr ⟨e, e', he, hyield, he', hyield',
        he'.tree_unplaced_eq he (by rw [hyield, hyield', hsame])⟩

/-- Sources with the same significant tokens, wherever these stand, have the same answer up to the
place of an error. -/
theorem evaluate_unplaced_eq {source source' : String} {ts ts' : List Token}
    (h : Token.scan source = .ok ts) (h' : Token.scan source' = .ok ts')
    (hsame : (Token.significant ts').map Token.unplaced =
      (Token.significant ts).map Token.unplaced) (debug : Bool) :
    (evaluate source' debug).mapError Error.unplaced =
      (evaluate source debug).mapError Error.unplaced := by
  rcases check_unplaced_cases hsame with
    ⟨e, e', hcheck, hcheck', herror⟩ | ⟨e, e', he, hyield, he', hyield', htree⟩
  · rw [evaluate_of_check_error h hcheck, evaluate_of_check_error h' hcheck']
    exact congrArg (fun err => Except.error (Error.syntactic err)) herror
  · rw [evaluate_of_phrase h he hyield, evaluate_of_phrase h' he' hyield',
      ← Tree.answer_unplaced, ← Tree.answer_unplaced, htree]

namespace Token

/-- What a scan demands of tokens apart from how they are written and where they stand: every minus
has the sign that its place asks for, and the groups are balanced. -/
def Fits : Nat → Option Kind → List Token → Prop
  | depth, _, [] => depth = 0
  | depth, previous, t :: ts =>
    (t.kind = .closeBrace → depth ≠ 0) ∧
      (t.lexeme.toList = ['-'] → t.kind = Lexeme.minus previous) ∧
      Fits (t.kind.depthAfter depth) (lookback previous t.kind) ts

section Fitting

variable {p : Position} {depth : Nat} {previous : Option Kind} {ts : List Token}

theorem segmented_iff_fits :
    Segmented p depth previous ts ↔
      Spelled ts ∧ ts.IsChain Apart ∧ place p ts = ts ∧ Fits depth previous ts := by
  induction ts generalizing p depth previous with
  | nil => simp [segmented_nil, Spelled, place, Fits]
  | cons t ts ih =>
    rw [segmented_cons, ih]
    constructor
    · intro h
      obtain ⟨rfl, hclose, hspells, hminus, hstops, hspelled, hchain, hplace, hfits⟩ := h
      exact ⟨List.forall_mem_cons.mpr ⟨hspells, hspelled⟩,
        (apart_cons_iff hspelled).mpr ⟨hstops, hchain⟩, congrArg (t :: ·) hplace,
        hclose, hminus, hfits⟩
    · intro h
      obtain ⟨hspelled, hchain, hplace, hclose, hminus, hfits⟩ := h
      obtain ⟨hspells, hspelled⟩ := List.forall_mem_cons.mp hspelled
      obtain ⟨hstops, hchain⟩ := (apart_cons_iff hspelled).mp hchain
      obtain ⟨hfirst, hrest⟩ := List.cons.inj hplace
      exact ⟨(congrArg position hfirst).symm, hclose, hspells, hminus, hstops, hspelled, hchain,
        hrest, hfits⟩

/-- Whitespace opens no group, closes none and is passed over by the look back. -/
theorem fits_significant (h : Spelled ts) :
    Fits depth previous (significant ts) ↔ Fits depth previous ts := by
  induction ts generalizing depth previous with
  | nil => rfl
  | cons t ts ih =>
    obtain ⟨hspells, hspelled⟩ := List.forall_mem_cons.mp h
    by_cases ht : t.kind = .whitespace
    · have hminus : t.lexeme.toList ≠ ['-'] := by
        intro htext
        rw [ht, htext] at hspells
        exact absurd (hspells.2 '-' List.mem_cons_self) (by decide)
      have hdepth : t.kind.depthAfter depth = depth := by rw [ht]; rfl
      have hprevious : lookback previous t.kind = previous := if_pos ht
      rw [significant_cons_of_whitespace ht, ih hspelled, Fits, hdepth, hprevious]
      simp [ht, hminus]
    · rw [significant_cons ht, Fits, Fits, ih hspelled]

theorem kind_lexeme_of_unplaced {t u : Token} (h : u.unplaced = t.unplaced) :
    u.kind = t.kind ∧ u.lexeme = t.lexeme := by
  have hkind := congrArg kind h
  have hlexeme := congrArg lexeme h
  exact ⟨hkind, hlexeme⟩

/-- Where tokens stand does not matter for what a scan demands of them. -/
theorem fits_of_unplaced {us : List Token} (h : us.map unplaced = ts.map unplaced) :
    Fits depth previous us ↔ Fits depth previous ts := by
  induction ts generalizing depth previous us with
  | nil => rw [List.map_eq_nil_iff.mp h]
  | cons t ts ih =>
    obtain ⟨u, us, rfl, hu, hus⟩ := List.map_eq_cons_iff.mp h
    obtain ⟨hkind, hlexeme⟩ := kind_lexeme_of_unplaced hu
    rw [Fits, Fits, hkind, hlexeme, ih hus]

theorem isChain_apart_of_unplaced {us : List Token} (h : us.map unplaced = ts.map unplaced) :
    us.IsChain Apart ↔ ts.IsChain Apart := by
  have hmap : ∀ vs : List Token, (vs.map unplaced).IsChain Apart ↔ vs.IsChain Apart :=
    fun vs => List.isChain_map unplaced
  rw [← hmap us, h, hmap ts]

theorem place_place (p : Position) (ts : List Token) : place p (place p ts) = place p ts := by
  induction ts generalizing p with
  | nil => rfl
  | cons t ts ih => exact congrArg (_ :: ·) (ih _)

end Fitting

def Blank (gap : List Char) : Prop := ∀ c ∈ gap, c = ' ' ∨ c = '\t' ∨ c = '\r' ∨ c = '\n'

/-- The text of tokens that are written one after the other, each with the gap behind it. -/
def spread (us : List (Token × List Char)) : List Char :=
  us.flatMap fun u => u.1.lexeme.toList ++ u.2

/-- Tokens with gaps of whitespace behind them, none of which is missing between two literals. -/
structure Spaced (us : List (Token × List Char)) : Prop where
  blank : ∀ u ∈ us, Blank u.2
  parted : us.IsChain fun u v =>
    u.1.kind.isOperand = true → v.1.kind.isOperand = true → u.2 ≠ []

def blanks (gap : List Char) : List Token :=
  if gap = [] then [] else [⟨.whitespace, String.ofList gap, .start⟩]

def withBlanks (gap : List Char) : List (Token × List Char) → List Token
  | [] => blanks gap
  | (t, after) :: us => blanks gap ++ t :: withBlanks after us

section Gaps

variable {gap : List Char} {us : List (Token × List Char)} {u : Token × List Char}

theorem text_blanks (gap : List Char) : text (blanks gap) = gap := by
  unfold blanks
  split
  · rename_i h
    rw [h]
    rfl
  · simp [text]

theorem text_withBlanks (gap : List Char) (us : List (Token × List Char)) :
    text (withBlanks gap us) = gap ++ spread us := by
  induction us generalizing gap with
  | nil => rw [withBlanks, text_blanks, spread, List.flatMap_nil, List.append_nil]
  | cons u us ih =>
    obtain ⟨t, after⟩ := u
    rw [withBlanks, text_append, text_blanks, text, List.flatMap_cons]
    change gap ++ (t.lexeme.toList ++ text (withBlanks after us)) = _
    rw [ih, spread, spread, List.flatMap_cons, List.append_assoc]

theorem significant_blanks (gap : List Char) : significant (blanks gap) = [] := by
  unfold blanks
  split <;> rfl

theorem significant_withBlanks (gap : List Char) (us : List (Token × List Char)) :
    significant (withBlanks gap us) = significant (us.map Prod.fst) := by
  induction us generalizing gap with
  | nil => exact significant_blanks gap
  | cons u us ih =>
    obtain ⟨t, after⟩ := u
    rw [withBlanks, significant_append, significant_blanks, List.nil_append, List.map_cons]
    by_cases ht : t.kind = .whitespace
    · rw [significant_cons_of_whitespace ht, significant_cons_of_whitespace ht, ih]
    · rw [significant_cons ht, significant_cons ht, ih]

theorem spelled_blanks (hgap : Blank gap) : Spelled (blanks gap) := by
  intro t ht
  unfold blanks at ht
  split at ht
  · cases ht
  · rename_i hne
    rw [List.mem_singleton.mp ht]
    rw [← String.toList_ofList (l := gap)] at hne hgap
    exact ⟨hne, hgap⟩

theorem spelled_withBlanks (hgap : Blank gap) (hus : Spaced us)
    (hspelled : Spelled (us.map Prod.fst)) : Spelled (withBlanks gap us) := by
  induction us generalizing gap with
  | nil => exact spelled_blanks hgap
  | cons u us ih =>
    obtain ⟨t, after⟩ := u
    obtain ⟨hafter, hblank⟩ := List.forall_mem_cons.mp hus.blank
    obtain ⟨ht, hrest⟩ := List.forall_mem_cons.mp hspelled
    have htail := ih hafter ⟨hblank, (List.isChain_cons.mp hus.parted).2⟩ hrest
    exact List.forall_mem_append.mpr ⟨spelled_blanks hgap, List.forall_mem_cons.mpr ⟨ht, htail⟩⟩

theorem head?_withBlanks_of_ne (hgap : gap ≠ []) (us : List (Token × List Char)) :
    (withBlanks gap us).head? = some ⟨.whitespace, String.ofList gap, .start⟩ := by
  cases us <;> simp [withBlanks, blanks, hgap]

theorem head?_withBlanks_nil (us : List (Token × List Char)) :
    (withBlanks [] us).head? = us.head?.map Prod.fst := by
  cases us <;> simp [withBlanks, blanks]

/-- A gap stands apart from the significant token behind it. -/
theorem isChain_blanks_append {t : Token} {ts : List Token} (gap : List Char)
    (ht : t.kind ≠ .whitespace) (hchain : (t :: ts).IsChain Apart) :
    (blanks gap ++ t :: ts).IsChain Apart := by
  unfold blanks
  split
  · exact hchain
  · exact .cons_cons ⟨fun h => ht h.2, fun h => Bool.false_ne_true h.1⟩ hchain

theorem isChain_withBlanks (gap : List Char) (hus : Spaced us)
    (hsignificant : ∀ u ∈ us, u.1.kind ≠ .whitespace) : (withBlanks gap us).IsChain Apart := by
  induction us generalizing gap with
  | nil =>
    unfold withBlanks blanks
    split
    · exact .nil
    · exact .singleton _
  | cons u us ih =>
    obtain ⟨t, after⟩ := u
    obtain ⟨ht, hrest⟩ := List.forall_mem_cons.mp hsignificant
    obtain ⟨hparted, hchain⟩ := List.isChain_cons.mp hus.parted
    have htail := ih after ⟨(List.forall_mem_cons.mp hus.blank).2, hchain⟩ hrest
    refine isChain_blanks_append gap ht (htail.cons ?_)
    intro v hv
    refine ⟨fun h => ht h.1, ?_⟩
    intro hliterals
    by_cases hafter : after = []
    · subst hafter
      rw [head?_withBlanks_nil] at hv
      obtain ⟨w, hw, rfl⟩ := Option.map_eq_some_iff.mp hv
      exact hparted w hw hliterals.1 hliterals.2 rfl
    · rw [head?_withBlanks_of_ne hafter] at hv
      cases hv
      exact Bool.false_ne_true hliterals.2

end Gaps

section Scans

variable {lead : List Char} {us : List (Token × List Char)}

/-- A text that is written with gaps is scanned into the tokens it was written with, and the
whitespace between them. -/
theorem scan_spread (hlead : Blank lead) (hus : Spaced us)
    (hsignificant : significant (us.map Prod.fst) = us.map Prod.fst)
    (hspelled : Spelled (us.map Prod.fst)) (hfits : Fits 0 none (us.map Prod.fst)) :
    scan (String.ofList (lead ++ spread us)) = .ok (place .start (withBlanks lead us)) := by
  have hwritten := spelled_withBlanks hlead hus hspelled
  have hkinds : ∀ u ∈ us, u.1.kind ≠ .whitespace := by
    intro u hu hkind
    have hmem := List.mem_map_of_mem (f := Prod.fst) hu
    rw [← hsignificant] at hmem
    have hsolid := (List.mem_filter.mp hmem).2
    simp [isWhitespace, hkind] at hsolid
  have hbare : Segmented .start 0 none (place .start (withBlanks lead us)) := by
    refine segmented_iff_fits.mpr ⟨hwritten.place .start, ?_, place_place _ _, ?_⟩
    · have hunplaced := map_unplaced_place .start (withBlanks lead us)
      exact (isChain_apart_of_unplaced hunplaced).mpr (isChain_withBlanks lead hus hkinds)
    · rw [fits_of_unplaced (map_unplaced_place .start (withBlanks lead us)),
        ← fits_significant hwritten, significant_withBlanks, hsignificant]
      exact hfits
  refine scan_eq_ok_iff.mpr ⟨?_, hbare⟩
  rw [String.toList_ofList, text_place, text_withBlanks]

/-- The significant tokens of the new text are those that were written. -/
theorem significant_spread (hsignificant : significant (us.map Prod.fst) = us.map Prod.fst) :
    (significant (place .start (withBlanks lead us))).map unplaced =
      (us.map Prod.fst).map unplaced := by
  have hcommute : ∀ ts : List Token,
      (significant ts).map unplaced = significant (ts.map unplaced) :=
    fun ts => (List.filter_map (f := unplaced) (p := fun t => !t.isWhitespace)).symm
  rw [hcommute, map_unplaced_place, ← hcommute, significant_withBlanks, hsignificant]

end Scans

section Sources

variable {source : String} {ts : List Token} {lead : List Char} {us : List (Token × List Char)}

theorem significant_significant (ts : List Token) : significant (significant ts) = significant ts :=
  List.filter_eq_self.mpr fun _ ht => (List.mem_filter.mp ht).2

theorem Spelled.significant (h : Spelled ts) : Spelled (significant ts) :=
  fun t ht => h t (List.mem_of_mem_filter ht)

/-- The significant tokens of a source can be written with any gaps. -/
theorem scan_spread_of_scan (h : scan source = .ok ts) (hus : us.map Prod.fst = significant ts)
    (hlead : Blank lead) (hspaced : Spaced us) :
    ∃ ts', scan (String.ofList (lead ++ spread us)) = .ok ts' ∧
      (significant ts').map unplaced = (significant ts).map unplaced := by
  obtain ⟨hspelled, -, -, hfits⟩ := segmented_iff_fits.mp (scan_eq_ok_iff.mp h).2
  have hsignificant : significant (us.map Prod.fst) = us.map Prod.fst := by
    rw [hus, significant_significant]
  refine ⟨place .start (withBlanks lead us), scan_spread hlead hspaced hsignificant ?_ ?_, ?_⟩
  · rw [hus]
    exact hspelled.significant
  · rw [hus]
    exact (fits_significant hspelled).mpr hfits
  · rw [significant_spread hsignificant, hus]

/-- Written again with other whitespace between them, the tokens of a source are scanned into the
same significant tokens, and they have the same answer up to the place of an error. -/
theorem evaluate_respaced (h : scan source = .ok ts) (hus : us.map Prod.fst = significant ts)
    (hlead : Blank lead) (hspaced : Spaced us) :
    ∃ ts', scan (String.ofList (lead ++ spread us)) = .ok ts' ∧
      ((significant ts').map fun t => (t.kind, t.lexeme)) =
        ((significant ts).map fun t => (t.kind, t.lexeme)) ∧
      ∀ debug, (evaluate (String.ofList (lead ++ spread us)) debug).mapError Error.unplaced =
        (evaluate source debug).mapError Error.unplaced := by
  obtain ⟨ts', hscan, hsame⟩ := scan_spread_of_scan h hus hlead hspaced
  exact ⟨ts', hscan, map_kind_lexeme_of_unplaced hsame, evaluate_unplaced_eq h hscan hsame⟩

/-- The tokens of `8 %( 2 -2)`. -/
def vanishingDivisor : List Token :=
  [⟨.number, "8", ⟨1, 1⟩⟩, ⟨.whitespace, " ", ⟨2, 1⟩⟩, ⟨.mod, "%", ⟨3, 1⟩⟩,
    ⟨.openBrace, "(", ⟨4, 1⟩⟩, ⟨.whitespace, " ", ⟨5, 1⟩⟩, ⟨.number, "2", ⟨6, 1⟩⟩,
    ⟨.whitespace, " ", ⟨7, 1⟩⟩, ⟨.sub, "-", ⟨8, 1⟩⟩, ⟨.number, "2", ⟨9, 1⟩⟩,
    ⟨.closeBrace, ")", ⟨10, 1⟩⟩]

/-- The same tokens with a line feed in front and in the middle of the group. -/
def vanishingDivisorGaps : List (Token × List Char) :=
  [(⟨.number, "8", ⟨1, 1⟩⟩, []), (⟨.mod, "%", ⟨3, 1⟩⟩, []), (⟨.openBrace, "(", ⟨4, 1⟩⟩, []),
    (⟨.number, "2", ⟨6, 1⟩⟩, []), (⟨.sub, "-", ⟨8, 1⟩⟩, ['\r', '\n']),
    (⟨.number, "2", ⟨9, 1⟩⟩, []), (⟨.closeBrace, ")", ⟨10, 1⟩⟩, ['\t'])]

theorem evaluate_respaced_vanishingDivisor :
    scan "8 %( 2 -2)" = .ok vanishingDivisor ∧
      vanishingDivisorGaps.map Prod.fst = significant vanishingDivisor ∧
      Blank ['\n'] ∧ Spaced vanishingDivisorGaps ∧
      ∃ ts', scan "\n8%(2-\r\n2)\t" = .ok ts' ∧
        ((significant ts').map fun t => (t.kind, t.lexeme)) =
          ((significant vanishingDivisor).map fun t => (t.kind, t.lexeme)) ∧
        ∀ debug, (evaluate "\n8%(2-\r\n2)\t" debug).mapError Error.unplaced =
          (evaluate "8 %( 2 -2)" debug).mapError Error.unplaced := by
  have hscan : scan "8 %( 2 -2)" = .ok vanishingDivisor := by cbv
  have hlead : Blank ['\n'] := by simp [Blank]
  have hspaced : Spaced vanishingDivisorGaps := by
    constructor
    · simp [vanishingDivisorGaps, Blank]
    · simp [vanishingDivisorGaps, Kind.isOperand]
  have htext : String.ofList (['\n'] ++ spread vanishingDivisorGaps) = "\n8%(2-\r\n2)\t" := by
    refine String.toList_inj.mp ?_
    rw [String.toList_ofList]
    decide
  have hsame := evaluate_respaced hscan rfl hlead hspaced
  rw [htext] at hsame
  exact ⟨hscan, rfl, hlead, hspaced, hsame⟩

end Sources

end Token

/-- A tree that a source is read as is read from every source with the same significant tokens. -/
theorem Tree.ReadFrom.of_unplaced {e : Tree} {source source' : String} {ts ts' : List Token}
    (hread : e.ReadFrom source) (h : Token.scan source = .ok ts)
    (h' : Token.scan source' = .ok ts')
    (hsame : (Token.significant ts').map Token.unplaced =
      (Token.significant ts).map Token.unplaced) : e.ReadFrom source' := by
  obtain ⟨us, p, hscan, hparse, hlisted⟩ := hread.listed
  obtain rfl : us = ts := Except.ok.inj (hscan.symm.trans h)
  refine ⟨?_, fun debug => (evaluate_unplaced_eq h h' hsame debug).trans (hread.answered debug)⟩
  rcases check_unplaced_cases hsame with
    ⟨err, err', hcheck, -, -⟩ | ⟨q, q', hq, hyield, hq', hyield', htree⟩
  · rw [Postfix.parse, hcheck] at hparse
    cases hparse
  · have hcheck := (Phrase.check_iff_exists_phrase us).mpr ⟨q, hq, hyield⟩
    have hcheck' := (Phrase.check_iff_exists_phrase ts').mpr ⟨q', hq', hyield'⟩
    rw [Postfix.parse, hcheck] at hparse
    cases hparse
    refine ⟨ts', Postfix.arrange ts', h', by rw [Postfix.parse, hcheck'], ?_⟩
    rw [← hlisted]
    refine Token.map_kind_lexeme_of_unplaced ?_
    rw [hq'.arrange hyield', hq.arrange hyield, ← Tree.postorder_map, ← Tree.postorder_map, htree]

/-- Tokens of the kinds of a phrase are significant. -/
theorem Phrase.At.significant_eq_self {e : Phrase} (h : At .sum e) {ts : List Token}
    (hkinds : ts.map Token.kind = e.yield.map Token.kind) : Token.significant ts = ts := by
  obtain ⟨s, hrun, -⟩ := h.derives.advance hkinds State.awaits_initial
  exact Token.significant_eq_self_of_advance Token.inStep_initial hrun

/-- A phrase that is written with gaps is read as its tree. -/
theorem Phrase.At.readFrom_spread {e : Phrase} (h : At .sum e)
    (hspelled : Token.Spelled e.yield) {lead : List Char} {us : List (Token × List Char)}
    (hus : us.map Prod.fst = e.yield) (hlead : Token.Blank lead) (hspaced : Token.Spaced us) :
    e.tree.ReadFrom (String.ofList (lead ++ Token.spread us)) := by
  have hscan := h.scan_text hspelled
  have hplaced := Token.map_unplaced_place .start e.yield
  obtain ⟨-, -, -, hfits⟩ := Token.segmented_iff_fits.mp (Token.scan_eq_ok_iff.mp hscan).2
  have hsignificant := h.significant_eq_self rfl
  have hwhole := h.significant_eq_self (map_kind_place .start e.yield)
  have hspread : Token.scan (String.ofList (lead ++ Token.spread us)) =
      .ok (Token.place .start (Token.withBlanks lead us)) := by
    refine Token.scan_spread hlead hspaced ?_ ?_ ?_
    · rw [hus, hsignificant]
    · rw [hus]
      exact hspelled
    · rw [hus]
      exact (Token.fits_of_unplaced hplaced).mp hfits
  refine (h.readFrom hspelled).of_unplaced hscan hspread ?_
  rw [Token.significant_spread (by rw [hus, hsignificant]), hus, hwhole, hplaced]

end Calculator
