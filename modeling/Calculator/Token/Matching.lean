import Calculator.Token

/-!
Which braces belong together: the end of a group belongs to the latest beginning that is still open.
So a group is closed by the first brace behind it that has only whole groups in between. Main
statement: this is the case exactly if the tokens behind the beginning end more groups than can be
matched among them, which makes it decidable.
-/
namespace Calculator.Token

/-- Every brace among these tokens has its partner among them. -/
inductive Nested : List Token → Prop
  | nil : Nested []
  | other {t : Token} {rest : List Token} : t.kind ≠ .openBrace → t.kind ≠ .closeBrace →
      Nested rest → Nested (t :: rest)
  | group {opening closing : Token} {inner rest : List Token} : opening.kind = .openBrace →
      Nested inner → closing.kind = .closeBrace → Nested rest →
      Nested (opening :: (inner ++ closing :: rest))

def Closes (ts : List Token) : Prop :=
  ∃ inner closing rest, ts = inner ++ closing :: rest ∧ Nested inner ∧
    closing.kind = .closeBrace

/-- The number of group ends that have no partner in front of them among these tokens. -/
def strays : List Token → Nat
  | [] => 0
  | t :: rest =>
    if t.kind = .openBrace then strays rest - 1
    else if t.kind = .closeBrace then strays rest + 1
    else strays rest

section Strays

variable {t : Token} {rest : List Token}

theorem strays_open (ht : t.kind = .openBrace) (rest : List Token) :
    strays (t :: rest) = strays rest - 1 := by
  rw [strays, if_pos ht]

theorem strays_close (ht : t.kind = .closeBrace) (rest : List Token) :
    strays (t :: rest) = strays rest + 1 := by
  rw [strays, if_neg (by rw [ht]; decide), if_pos ht]

theorem strays_other (hopen : t.kind ≠ .openBrace) (hclose : t.kind ≠ .closeBrace)
    (rest : List Token) : strays (t :: rest) = strays rest := by
  rw [strays, if_neg hopen, if_neg hclose]

/-- Whole groups leave nothing unmatched. -/
theorem Nested.strays_append {inner : List Token} (h : Nested inner) (rest : List Token) :
    strays (inner ++ rest) = strays rest := by
  induction h generalizing rest with
  | nil => rfl
  | other hopen hclose _ ih => rw [List.cons_append, strays_other hopen hclose, ih]
  | group hopening _ hclosing _ ihInner ihRest =>
    rw [List.cons_append, strays_open hopening, List.append_assoc, ihInner, List.cons_append,
      strays_close hclosing, ihRest, Nat.add_sub_cancel]

/-- The first unmatched end of a group, with the tokens in front of it. The induction is on the
number of tokens, since behind a group that is closed the search begins again. -/
theorem exists_of_strays {ts : List Token} {count : Nat} (h : strays ts = count + 1) :
    ∃ inner closing rest, ts = inner ++ closing :: rest ∧ Nested inner ∧
      closing.kind = .closeBrace ∧ strays rest = count := by
  induction hlength : ts.length using Nat.strongRecOn generalizing ts count with
  | ind length ih =>
    cases ts with
    | nil => cases h
    | cons t ts =>
      have hshort : ts.length < length := by
        rw [← hlength]
        exact Nat.lt_succ_self _
      by_cases hopen : t.kind = .openBrace
      · rw [strays_open hopen] at h
        have hmore : strays ts = (count + 1) + 1 := by omega
        obtain ⟨inner, closing, rest, rfl, hinner, hclosing, hrest⟩ := ih _ hshort hmore rfl
        have hshorter : rest.length < length := by
          simp only [List.length_append, List.length_cons] at hshort
          omega
        obtain ⟨later, closing', rest', rfl, hlater, hclosing', hrest'⟩ := ih _ hshorter hrest rfl
        refine ⟨t :: (inner ++ closing :: later), closing', rest', ?_,
          .group hopen hinner hclosing hlater, hclosing', hrest'⟩
        simp
      by_cases hclose : t.kind = .closeBrace
      · rw [strays_close hclose] at h
        exact ⟨[], t, ts, rfl, .nil, hclose, Nat.succ.inj h⟩
      · rw [strays_other hopen hclose] at h
        obtain ⟨inner, closing, rest, rfl, hinner, hclosing, hrest⟩ := ih _ hshort h rfl
        exact ⟨t :: inner, closing, rest, rfl, .other hopen hclose hinner, hclosing, hrest⟩

theorem closes_iff (ts : List Token) : Closes ts ↔ 0 < strays ts := by
  constructor
  · rintro ⟨inner, closing, rest, rfl, hinner, hclosing⟩
    rw [hinner.strays_append, strays_close hclosing]
    exact Nat.succ_pos _
  · intro h
    obtain ⟨count, hcount⟩ := Nat.exists_eq_succ_of_ne_zero (Nat.ne_of_gt h)
    obtain ⟨inner, closing, rest, hts, hinner, hclosing, -⟩ := exists_of_strays hcount
    exact ⟨inner, closing, rest, hts, hinner, hclosing⟩

end Strays

instance (ts : List Token) : Decidable (Closes ts) := decidable_of_iff _ (closes_iff ts).symm

def unclosed : List Token → List Token
  | [] => []
  | t :: rest =>
    if t.kind = .openBrace ∧ ¬Closes rest then t :: unclosed rest else unclosed rest

end Calculator.Token
