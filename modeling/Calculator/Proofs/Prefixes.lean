import Calculator.Proofs.Scanning

/-!
What a failing scan has read. Tokens that have been read stay as they are whatever stands behind
them, as long as it does not make the last of them longer. Main statement: a scan fails at the first
fault of its text, and the tokens in front of the fault have been read.
-/
namespace Calculator

/-- The text is empty, or begins as `rest` does or with the end of a group. -/
def BeginsLike (rest text : List Char) : Prop := ∀ c ∈ text.head?, c ∈ rest.head? ∨ c = ')'

section Beginnings

variable {rest more : List Char}

theorem BeginsLike.append (h : BeginsLike rest more) (front : List Char) :
    BeginsLike (front ++ rest) (front ++ more) := by
  cases front with
  | nil => exact h
  | cons d front => exact fun c hc => .inl hc

theorem beginsLike_cons (c : Char) (rest more : List Char) :
    BeginsLike (c :: rest) (c :: more) := fun _ hd => .inl hd

theorem beginsLike_ends (rest : List Char) (depth : Nat) :
    BeginsLike rest (List.replicate depth ')') := by
  intro c hc
  exact .inr (List.eq_of_mem_replicate (List.mem_of_mem_head? hc))

/-- What holds of the end of a group and where `rest` begins holds where `more` begins. -/
theorem BeginsLike.forall_head {P : Char → Prop} (hlike : BeginsLike rest more) (hend : P ')')
    (h : ∀ c ∈ rest.head?, P c) : ∀ c ∈ more.head?, P c := by
  intro c hc
  rcases hlike c hc with hrest | rfl
  · exact h c hrest
  · exact hend

/-- None of these texts makes a lexeme in front of it longer. -/
theorem Lexeme.Stops.of_beginsLike {k : Kind} (h : Stops k rest) (hlike : BeginsLike rest more) :
    Stops k more := by
  cases k
  case number => exact hlike.forall_head (by decide) h
  case decimal => exact hlike.forall_head (by decide) h
  case whitespace => exact hlike.forall_head (by decide) h
  all_goals trivial

end Beginnings

namespace Token

variable {p : Position} {depth : Nat} {previous : Option Kind} {source rest : List Char}
  {front : List Token} {e : LexicalError}

/-- The scan has read `front` in front of `rest` and stands inside `inner` groups, with `last` as
the kind that a later minus looks back to. Whatever stands in the place of `rest` without making the
tokens longer, the scan comes to the same place. -/
structure Passed (p : Position) (depth : Nat) (previous : Option Kind) (front : List Token)
    (rest : List Char) (inner : Nat) (last : Option Kind) : Prop where
  spelled : ∀ t ∈ front, t.kind.Spells t.lexeme.toList
  counted : depth + openings front = inner + closings front
  resumes : ∀ more, BeginsLike rest more →
    scanFrom p depth previous (text front ++ more) =
      (scanFrom (p.advance (text front)) inner last more).map (front ++ ·)

theorem passed_nil : Passed p depth previous [] rest depth previous where
  spelled := nofun
  counted := rfl
  resumes more _ := by
    change scanFrom p depth previous more = (scanFrom p depth previous more).map id
    rw [Except.map_id]
    rfl

/-- A first lexeme in front of tokens that have been read. -/
theorem Passed.cons {c : Char} {tail : List Char} {l : Lexeme} {inner : Nat} {last : Option Kind}
    (hfirst : Lexeme.first previous p c tail = .ok l) (hclose : l.kind = .closeBrace → depth ≠ 0)
    (hrest : l.rest = text front ++ rest)
    (h : Passed (p.advance l.text) (l.kind.depthAfter depth) (lookback previous l.kind) front rest
      inner last) :
    Passed p depth previous (⟨l.kind, String.ofList l.text, p⟩ :: front) rest inner last := by
  obtain ⟨hspells, hstops, hminus⟩ := Lexeme.first_spec hfirst
  refine ⟨?_, ?_, ?_⟩
  · refine List.forall_mem_cons.mpr ⟨?_, h.spelled⟩
    rw [String.toList_ofList]
    exact hspells
  · have hcounted := h.counted
    rw [openings_cons, closings_cons]
    cases hk : l.kind <;> simp [hk, Kind.depthAfter] at hcounted hclose ⊢ <;> omega
  · intro more hlike
    have htext : text (⟨l.kind, String.ofList l.text, p⟩ :: front) = l.text ++ text front := by
      simp [text]
    obtain ⟨d, run, hrun⟩ := List.exists_cons_of_ne_nil (Lexeme.text_ne_nil hfirst)
    have hsplit : d :: (run ++ (text front ++ more)) = l.text ++ (text front ++ more) := by
      rw [hrun, List.cons_append]
    have hsame : Lexeme.first previous p d (run ++ (text front ++ more)) =
        .ok ⟨l.kind, l.text, text front ++ more⟩ := by
      refine Lexeme.first_of_spells hspells ?_ hminus hsplit
      rw [hrest] at hstops
      exact hstops.of_beginsLike (hlike.append (text front))
    have hopen : ¬(l.kind = .closeBrace ∧ depth = 0) := fun hend => hclose hend.1 hend.2
    rw [htext, List.append_assoc, ← hsplit, scanFrom_cons_ok hsame, if_neg hopen,
      h.resumes more hlike, Position.advance_append]
    cases scanFrom ((p.advance l.text).advance (text front)) inner last more with
    | error err => rfl
    | ok ts => rfl

/-- A fault at the front of a text: a character that begins no lexeme, the end of a group where none
is open, a point behind digits that no digit follows, or the end of the text inside a group. -/
inductive Fault (p : Position) (depth : Nat) (previous : Option Kind) :
    List Char → LexicalError → Prop
  | character {c : Char} {rest : List Char} {e : LexicalError} :
      e = .unknownToken (String.singleton c) p ∨ e = .unexpectedToken (String.singleton c) p →
      (∀ more, Lexeme.first previous p c more = .error e) → Fault p depth previous (c :: rest) e
  | close {rest : List Char} : depth = 0 →
      Fault p depth previous (')' :: rest) (.unexpectedCloseBrace p)
  | point {whole rest : List Char} : Kind.Digits whole → (∀ c ∈ rest.head?, c.isDigit = false) →
      Fault p depth previous (whole ++ '.' :: rest)
        (Lexeme.missingDigit (p.advance (whole ++ ['.'])) rest)
  | group : depth ≠ 0 →
      Fault p depth previous [] (.unexpectedEnd (.ofList [.closeBrace]) p)

/-- A literal fails at a point behind digits that no digit follows. -/
theorem fault_of_literal {c : Char} {rest : List Char} (hc : c.isDigit = true)
    (h : Lexeme.literal p (c :: rest) = .error e) : Fault p depth previous (c :: rest) e := by
  have hsplit := List.takeWhile_append_dropWhile (p := Char.isDigit) (l := c :: rest)
  simp only [Lexeme.literal] at h
  split at h
  · rename_i tail htail
    split at h
    · rename_i hnone
      cases h
      have hstop : ∀ d ∈ tail.head?, d.isDigit = false := by
        intro d hd
        obtain ⟨more, rfl⟩ := List.head?_eq_some_iff.mp hd
        rw [List.takeWhile_cons] at hnone
        split at hnone <;> simp_all
      have hpoint : Fault p depth previous ((c :: rest).takeWhile Char.isDigit ++ '.' :: tail) _ :=
        .point (Lexeme.digits_takeWhile rest hc) hstop
      rw [← htail, hsplit] at hpoint
      exact hpoint
    · cases h
  · cases h

/-- A first lexeme that cannot be read is a fault at the front. The text behind a character that
begins no lexeme is not looked at. -/
theorem fault_of_first {c : Char} {rest : List Char}
    (h : Lexeme.first previous p c rest = .error e) : Fault p depth previous (c :: rest) e := by
  by_cases hdigit : c.isDigit = true
  · rw [Lexeme.first, if_pos hdigit] at h
    exact fault_of_literal hdigit h
  by_cases hblank : Lexeme.isBlank c = true
  · rw [Lexeme.first, if_neg hdigit, if_pos hblank] at h
    cases h
  cases hsymbol : Lexeme.symbol? previous c with
  | some k =>
    rw [Lexeme.first, if_neg hdigit, if_neg hblank, hsymbol] at h
    cases h
  | none =>
    have hagain : ∀ more, Lexeme.first previous p c more = .error e := by
      intro more
      rw [Lexeme.first, if_neg hdigit, if_neg hblank, hsymbol] at h ⊢
      exact h
    refine .character ?_ hagain
    rw [Lexeme.first, if_neg hdigit, if_neg hblank, hsymbol] at h
    change (if c = '.' then _ else _) = _ at h
    split at h
    · rename_i hpoint
      cases h
      exact .inr (by rw [hpoint]; rfl)
    · cases h
      exact .inl rfl

/-- A scan that fails has read some tokens and then finds a fault. The induction is along the
scan. -/
theorem exists_fault (h : scanFrom p depth previous source = .error e) :
    ∃ front rest inner last, source = text front ++ rest ∧
      Passed p depth previous front rest inner last ∧
      Fault (p.advance (text front)) inner last rest e := by
  induction hlength : source.length using Nat.strong_induction_on generalizing p depth previous
    source with
  | _ length ih =>
    cases source with
    | nil =>
      rw [scanFrom_nil] at h
      split at h
      · cases h
      · rename_i hdepth
        cases h
        exact ⟨[], [], depth, previous, rfl, passed_nil, .group hdepth⟩
    | cons c tail =>
      cases hfirst : Lexeme.first previous p c tail with
      | error e' =>
        rw [scanFrom_cons_error hfirst] at h
        cases h
        exact ⟨[], c :: tail, depth, previous, rfl, passed_nil, fault_of_first hfirst⟩
      | ok l =>
        have hsplit := Lexeme.text_append_rest hfirst
        rw [scanFrom_cons_ok hfirst] at h
        split at h
        · rename_i hclose
          cases h
          have hspells := (Lexeme.first_spec hfirst).1
          rw [hclose.1] at hspells
          rw [show l.text = [')'] from hspells] at hsplit
          refine ⟨[], c :: tail, depth, previous, rfl, passed_nil, ?_⟩
          rw [← hsplit]
          exact .close hclose.2
        · rename_i hclose
          cases hrest : scanFrom (p.advance l.text) (l.kind.depthAfter depth)
              (lookback previous l.kind) l.rest with
          | ok ts =>
            rw [hrest] at h
            cases h
          | error e' =>
            rw [hrest] at h
            cases h
            have hless : l.rest.length < length := hlength ▸ Lexeme.length_rest_lt hfirst
            obtain ⟨front, rest, inner, last, hl, hpassed, hfault⟩ := ih _ hless hrest rfl
            have htext : text (⟨l.kind, String.ofList l.text, p⟩ :: front) =
                l.text ++ text front := by
              simp [text]
            refine ⟨_, rest, inner, last, ?_,
              .cons hfirst (fun hk hdepth => hclose ⟨hk, hdepth⟩) hl hpassed, ?_⟩
            · rw [htext, List.append_assoc, ← hl, hsplit]
            · rw [htext, Position.advance_append]
              exact hfault

end Token

end Calculator
