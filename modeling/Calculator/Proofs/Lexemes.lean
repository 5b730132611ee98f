import Calculator.Token.Lexeme
import Calculator.Token.Spelling

/-!
What the first lexeme of a text is: a spelling of its kind at the front of the text that cannot be
made longer. A run of digits stops in front of a character that is neither a digit nor a point, so
that a number is never the front of a longer number; a minus is read as its place demands.
-/
namespace Calculator.Lexeme

/-- The text behind a lexeme of kind `k` does not go on with it. -/
def Stops (k : Kind) (rest : List Char) : Prop :=
  match k with
  | .number => ∀ c ∈ rest.head?, c.isDigit = false ∧ c ≠ '.'
  | .decimal => ∀ c ∈ rest.head?, c.isDigit = false
  | .whitespace => ∀ c ∈ rest.head?, isBlank c = false
  | _ => True

section Runs

variable {p : Char → Bool} {run rest : List Char}

theorem head_dropWhile (p : Char → Bool) (text : List Char) :
    ∀ c ∈ (text.dropWhile p).head?, p c = false := by
  intro c hc
  have hstop := List.head?_dropWhile_not p text
  rw [Option.mem_def.mp hc] at hstop
  exact hstop

theorem takeWhile_append_of_stop (hrun : ∀ c ∈ run, p c = true)
    (hrest : ∀ c ∈ rest.head?, p c = false) : (run ++ rest).takeWhile p = run := by
  rw [List.takeWhile_append_of_pos hrun]
  cases rest with
  | nil => simp
  | cons c rest => simp [hrest c rfl]

theorem dropWhile_append_of_stop (hrun : ∀ c ∈ run, p c = true)
    (hrest : ∀ c ∈ rest.head?, p c = false) : (run ++ rest).dropWhile p = rest := by
  rw [List.dropWhile_append_of_pos hrun]
  cases rest with
  | nil => rfl
  | cons c rest => simp [hrest c rfl]

theorem digits_takeWhile {c : Char} (text : List Char) (hc : c.isDigit = true) :
    Kind.Digits ((c :: text).takeWhile Char.isDigit) := by
  refine ⟨by simp [hc], ?_⟩
  exact List.all_eq_true.mp List.all_takeWhile

end Runs

theorem isDigit_of_isBlank {c : Char} (h : isBlank c = true) : c.isDigit = false := by
  rcases isBlank_iff.mp h with rfl | rfl | rfl | rfl <;> rfl

section Literals

variable {place : Position} {c : Char} {rest : List Char} {l : Lexeme}

theorem literal_spec (hc : c.isDigit = true) (h : literal place (c :: rest) = .ok l) :
    l.kind.Spells l.text ∧ Stops l.kind l.rest ∧ l.kind.isOperand = true := by
  have hwhole := digits_takeWhile rest hc
  have hstop := head_dropWhile Char.isDigit (c :: rest)
  simp only [literal] at h
  split at h
  · rename_i tail _
    split at h
    · cases h
    · rename_i hfraction
      cases h
      refine ⟨⟨_, _, rfl, hwhole, hfraction, ?_⟩, head_dropWhile Char.isDigit tail, rfl⟩
      exact List.all_eq_true.mp List.all_takeWhile
  · rename_i tail hpoint
    cases h
    refine ⟨hwhole, ?_, rfl⟩
    intro d hd
    refine ⟨hstop d hd, ?_⟩
    intro hdot
    subst hdot
    obtain ⟨tail', htail⟩ := List.head?_eq_some_iff.mp hd
    exact hpoint tail' htail

theorem literal_number {whole : List Char} (hwhole : Kind.Digits whole)
    (hrest : Stops .number rest) :
    literal place (whole ++ rest) = .ok ⟨.number, whole, rest⟩ := by
  have hdigit : ∀ c ∈ rest.head?, c.isDigit = false := fun c hc => (hrest c hc).1
  simp only [literal]
  rw [takeWhile_append_of_stop hwhole.2 hdigit, dropWhile_append_of_stop hwhole.2 hdigit]
  split
  · rename_i tail
    exact absurd rfl (hrest '.' rfl).2
  · rfl

theorem literal_decimal {whole fraction : List Char} (hwhole : Kind.Digits whole)
    (hfraction : Kind.Digits fraction) (hrest : Stops .decimal rest) :
    literal place (whole ++ '.' :: fraction ++ rest) =
      .ok ⟨.decimal, whole ++ '.' :: fraction, rest⟩ := by
  have hpoint : ∀ c ∈ ('.' :: (fraction ++ rest)).head?, c.isDigit = false := by
    intro c hc
    cases hc
    rfl
  simp only [literal, List.append_assoc, List.cons_append]
  rw [takeWhile_append_of_stop hwhole.2 hpoint, dropWhile_append_of_stop hwhole.2 hpoint]
  simp only
  rw [takeWhile_append_of_stop hfraction.2 hrest, dropWhile_append_of_stop hfraction.2 hrest,
    if_neg hfraction.1]

end Literals

section First

variable {previous : Option Kind} {place : Position} {c : Char} {rest : List Char} {l : Lexeme}

theorem minus_eq_neg_or_sub (previous : Option Kind) :
    minus previous = .neg ∨ minus previous = .sub := by
  unfold minus
  split
  · exact Or.inl rfl
  · split
    · exact Or.inl rfl
    · exact Or.inr rfl

theorem symbol_spec {k : Kind} (h : symbol? previous c = some k) :
    k.Spells [c] ∧ (∀ rest, Stops k rest) ∧ (c = '-' → k = minus previous) := by
  unfold symbol? at h
  split at h <;> cases h
  case h_4 =>
    rcases minus_eq_neg_or_sub previous with hk | hk <;> rw [hk] <;>
      exact ⟨rfl, fun _ => trivial, fun _ => rfl⟩
  all_goals exact ⟨rfl, fun _ => trivial, fun hc => absurd hc (by decide)⟩

theorem first_spec (h : first previous place c rest = .ok l) :
    l.kind.Spells l.text ∧ Stops l.kind l.rest ∧
      (l.text = ['-'] → l.kind = minus previous) := by
  have hsplit := text_append_rest h
  unfold first at h
  split at h
  · rename_i hc
    obtain ⟨hspells, hstops, -⟩ := literal_spec hc h
    refine ⟨hspells, hstops, ?_⟩
    intro hminus
    rw [hminus] at hsplit
    cases hsplit
    cases hc
  · split at h
    · rename_i hc
      cases h
      refine ⟨⟨by simp, ?_⟩, head_dropWhile isBlank rest, ?_⟩
      · intro d hd
        rcases List.mem_cons.mp hd with rfl | hd
        · exact isBlank_iff.mp hc
        · exact isBlank_iff.mp (List.all_eq_true.mp List.all_takeWhile d hd)
      · intro hminus
        rw [(List.cons.inj hminus).1] at hc
        cases hc
    · split at h
      · rename_i k hk
        cases h
        obtain ⟨hspells, hstops, hminus⟩ := symbol_spec hk
        exact ⟨hspells, hstops rest, fun htext => hminus (List.cons.inj htext).1⟩
      · split at h <;> cases h

theorem first_symbol {k : Kind} (hdigit : c.isDigit = false) (hblank : isBlank c = false)
    (hk : symbol? previous c = some k) : first previous place c rest = .ok ⟨k, [c], rest⟩ := by
  rw [first, hdigit, hblank, hk]
  rfl

/-- The first lexeme is found from its spelling and the text behind it. -/
theorem first_of_spells {k : Kind} {text tail : List Char} (hspells : k.Spells text)
    (hstops : Stops k tail) (hminus : text = ['-'] → k = minus previous)
    (hsplit : c :: rest = text ++ tail) :
    first previous place c rest = .ok ⟨k, text, tail⟩ := by
  cases k
  case number =>
    obtain ⟨d, digits, rfl⟩ := List.exists_cons_of_ne_nil hspells.1
    have hc : c = d := (List.cons.inj hsplit).1
    have hdigit : c.isDigit = true := hc ▸ hspells.2 d List.mem_cons_self
    rw [first, if_pos hdigit, hsplit]
    exact literal_number hspells hstops
  case decimal =>
    obtain ⟨whole, fraction, rfl, hwhole, hfraction⟩ := hspells
    obtain ⟨d, digits, rfl⟩ := List.exists_cons_of_ne_nil hwhole.1
    have hc : c = d := (List.cons.inj hsplit).1
    have hdigit : c.isDigit = true := hc ▸ hwhole.2 d List.mem_cons_self
    rw [first, if_pos hdigit, hsplit]
    exact literal_decimal hwhole hfraction hstops
  case whitespace =>
    obtain ⟨b, blanks, rfl⟩ := List.exists_cons_of_ne_nil hspells.1
    have hc : c = b := (List.cons.inj hsplit).1
    have hrest : rest = blanks ++ tail := (List.cons.inj hsplit).2
    have hblank : isBlank c = true := isBlank_iff.mpr (hc ▸ hspells.2 b List.mem_cons_self)
    have hblanks : ∀ d ∈ blanks, isBlank d = true :=
      fun d hd => isBlank_iff.mpr (hspells.2 d (List.mem_cons_of_mem b hd))
    rw [first, isDigit_of_isBlank hblank, if_neg Bool.false_ne_true, if_pos hblank, hrest,
      takeWhile_append_of_stop hblanks hstops, dropWhile_append_of_stop hblanks hstops, hc]
  case sub =>
    obtain rfl : text = ['-'] := hspells
    obtain ⟨rfl, rfl⟩ := List.cons.inj hsplit
    exact first_symbol rfl rfl (congrArg some (hminus rfl).symm)
  case neg =>
    obtain rfl : text = ['-'] := hspells
    obtain ⟨rfl, rfl⟩ := List.cons.inj hsplit
    exact first_symbol rfl rfl (congrArg some (hminus rfl).symm)
  all_goals
    obtain rfl := hspells
    obtain ⟨rfl, rfl⟩ := List.cons.inj hsplit
    exact first_symbol rfl rfl rfl

end First

theorem head_of_digits {run : List Char} (h : Kind.Digits run) :
    ∃ c tail, run = c :: tail ∧ c.isDigit = true ∧ isBlank c = false ∧ c ≠ '.' := by
  obtain ⟨c, tail, rfl⟩ := List.exists_cons_of_ne_nil h.1
  have hc := h.2 c List.mem_cons_self
  refine ⟨c, tail, rfl, hc, ?_, ?_⟩
  · cases hblank : isBlank c with
    | false => rfl
    | true =>
      rw [isDigit_of_isBlank hblank] at hc
      cases hc
  · intro hdot
    rw [hdot] at hc
    cases hc

/-- The first character of a spelling tells literals, whitespace and the rest apart, and it is
never a point. -/
theorem head_of_spells {k : Kind} {text : List Char} (h : k.Spells text) :
    ∃ c tail, text = c :: tail ∧ c.isDigit = k.isOperand ∧
      isBlank c = decide (k = .whitespace) ∧ c ≠ '.' := by
  cases k
  case number => exact head_of_digits h
  case decimal =>
    obtain ⟨whole, fraction, rfl, hwhole, -⟩ := h
    obtain ⟨c, tail, rfl, hc⟩ := head_of_digits hwhole
    exact ⟨c, tail ++ '.' :: fraction, rfl, hc⟩
  case whitespace =>
    obtain ⟨c, tail, rfl⟩ := List.exists_cons_of_ne_nil h.1
    have hc : isBlank c = true := isBlank_iff.mpr (h.2 c List.mem_cons_self)
    refine ⟨c, tail, rfl, isDigit_of_isBlank hc, hc, ?_⟩
    intro hdot
    rw [hdot] at hc
    cases hc
  all_goals
    obtain rfl := h
    exact ⟨_, _, rfl, rfl, rfl, by decide⟩

end Calculator.Lexeme
