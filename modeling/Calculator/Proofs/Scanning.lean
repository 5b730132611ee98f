import Calculator.Proofs.Lexemes
import Calculator.Proofs.Places
import Calculator.Token.Scan
import Mathlib.Data.List.Chain

/-!
The token lists that a source can be scanned into, said without the scanner: their lexemes make up
the source, each is spelled as its kind demands, no two neighbours could be one lexeme, every place
and every minus is told by the tokens before it, and the groups are balanced. A scan finds exactly
these lists, of which there is at most one for a source.
-/
namespace Calculator.Token

def text (ts : List Token) : List Char := ts.flatMap fun t => t.lexeme.toList

/-- Two neighbours that are not the front and the rest of one longer lexeme. -/
def Apart (t u : Token) : Prop :=
  ¬(t.kind = .whitespace ∧ u.kind = .whitespace) ∧
    ¬(t.kind.isOperand = true ∧ u.kind.isOperand = true)

def openings (ts : List Token) : Nat := (ts.map Token.kind).count .openBrace

def closings (ts : List Token) : Nat := (ts.map Token.kind).count .closeBrace

/-- Tokens as they are read one by one from a text that begins at a place, inside open groups and
behind a token of some kind. -/
def Reads : List Token → Position → Nat → Option Kind → List Char → Prop
  | [], _, depth, _, source => source = [] ∧ depth = 0
  | t :: ts, p, depth, previous, source =>
    t.position = p ∧ (t.kind = .closeBrace → depth ≠ 0) ∧
      t.kind.Spells t.lexeme.toList ∧
      (t.lexeme.toList = ['-'] → t.kind = Lexeme.minus previous) ∧
      ∃ rest, source = t.lexeme.toList ++ rest ∧ Lexeme.Stops t.kind rest ∧
        Reads ts (p.advance t.lexeme.toList) (t.kind.depthAfter depth) (lookback previous t.kind)
          rest

section Reading

variable {ts : List Token} {p : Position} {depth : Nat} {previous : Option Kind}
  {source rest : List Char} {c : Char}

/-- A scan that succeeds reads a first lexeme and goes on behind it. -/
theorem scanFrom_cons_eq_ok_iff :
    scanFrom p depth previous (c :: rest) = .ok ts ↔
      ∃ l tail, Lexeme.first previous p c rest = .ok l ∧ (l.kind = .closeBrace → depth ≠ 0) ∧
        scanFrom (p.advance l.text) (l.kind.depthAfter depth) (lookback previous l.kind) l.rest =
          .ok tail ∧
        ts = ⟨l.kind, String.ofList l.text, p⟩ :: tail := by
  cases hfirst : Lexeme.first previous p c rest with
  | error e =>
    rw [scanFrom_cons_error hfirst]
    simp
  | ok l =>
    rw [scanFrom_cons_ok hfirst]
    by_cases hclose : l.kind = .closeBrace ∧ depth = 0
    · simp [hclose.1, hclose.2]
    · rw [if_neg hclose]
      have hopen : l.kind = .closeBrace → depth ≠ 0 := fun hk hd => hclose ⟨hk, hd⟩
      cases hrest : scanFrom (p.advance l.text) (l.kind.depthAfter depth)
          (lookback previous l.kind) l.rest with
      | error e => simp [Except.map, hrest]
      | ok tail =>
        constructor
        · intro h
          cases h
          exact ⟨l, tail, rfl, hopen, hrest, rfl⟩
        · intro h
          obtain ⟨l', tail', hl, -, htail, rfl⟩ := h
          cases hl
          rw [hrest] at htail
          cases htail
          rfl

theorem reads_of_scanFrom (h : scanFrom p depth previous source = .ok ts) :
    Reads ts p depth previous source := by
  induction ts generalizing p depth previous source with
  | nil =>
    cases source with
    | nil =>
      rw [scanFrom_nil] at h
      split at h
      · rename_i hdepth
        exact ⟨rfl, hdepth⟩
      · cases h
    | cons c rest =>
      obtain ⟨l, tail, -, -, -, hts⟩ := scanFrom_cons_eq_ok_iff.mp h
      cases hts
  | cons t ts ih =>
    cases source with
    | nil =>
      rw [scanFrom_nil] at h
      split at h <;> cases h
    | cons c rest =>
      obtain ⟨l, tail, hfirst, hclose, hrest, hts⟩ := scanFrom_cons_eq_ok_iff.mp h
      cases hts
      obtain ⟨hspells, hstops, hminus⟩ := Lexeme.first_spec hfirst
      have hread := ih hrest
      have hsplit := (Lexeme.text_append_rest hfirst).symm
      rw [← String.toList_ofList (l := l.text)] at hspells hminus hread hsplit
      exact ⟨rfl, hclose, hspells, hminus, l.rest, hsplit, hstops, hread⟩

theorem scanFrom_of_reads (h : Reads ts p depth previous source) :
    scanFrom p depth previous source = .ok ts := by
  induction ts generalizing p depth previous source with
  | nil =>
    obtain ⟨rfl, rfl⟩ := h
    simp
  | cons t ts ih =>
    obtain ⟨hplace, hclose, hspells, hminus, rest, rfl, hstops, hread⟩ := h
    obtain ⟨c, tail, htext⟩ := List.exists_cons_of_ne_nil hspells.ne_nil
    have hsource : t.lexeme.toList ++ rest = c :: (tail ++ rest) := by
      rw [htext, List.cons_append]
    have hfirst : Lexeme.first previous p c (tail ++ rest) = .ok ⟨t.kind, t.lexeme.toList, rest⟩ :=
      Lexeme.first_of_spells hspells hstops hminus hsource.symm
    rw [hsource]
    refine scanFrom_cons_eq_ok_iff.mpr ⟨_, ts, hfirst, hclose, ih hread, ?_⟩
    rw [String.ofList_toList, ← hplace]

end Reading

structure Segmented (p : Position) (depth : Nat) (previous : Option Kind) (ts : List Token) :
    Prop where
  spelled : ∀ t ∈ ts, t.kind.Spells t.lexeme.toList
  apart : ts.IsChain Apart
  placed : ∀ front t rest, ts = front ++ t :: rest → t.position = p.advance (text front)
  signed : ∀ front t rest, ts = front ++ t :: rest → t.lexeme.toList = ['-'] →
    t.kind = Lexeme.minus (front.foldl (fun k u => lookback k u.kind) previous)
  closed : ∀ front, front <+: ts → closings front ≤ depth + openings front
  balanced : closings ts = depth + openings ts

/-- A lexeme stops in front of another one exactly if the two are apart. -/
theorem stops_iff_apart {t u : Token} (hu : u.kind.Spells u.lexeme.toList) (rest : List Char) :
    Lexeme.Stops t.kind (u.lexeme.toList ++ rest) ↔ Apart t u := by
  obtain ⟨c, tail, htext, hdigit, hblank, hpoint⟩ := Lexeme.head_of_spells hu
  rw [htext, Apart]
  cases hk : t.kind <;>
    simp [Lexeme.Stops, Kind.isOperand, hdigit, hblank, hpoint]

section Splits

variable {t : Token} {ts : List Token}

theorem forall_split_cons {P : List Token → Token → Prop} :
    (∀ front u rest, t :: ts = front ++ u :: rest → P front u) ↔
      P [] t ∧ ∀ front u rest, ts = front ++ u :: rest → P (t :: front) u := by
  constructor
  · intro h
    refine ⟨h [] t ts rfl, ?_⟩
    intro front u rest hts
    exact h (t :: front) u rest (by rw [hts, List.cons_append])
  · intro h front u rest hts
    cases front with
    | nil =>
      cases hts
      exact h.1
    | cons a front =>
      obtain ⟨rfl, hrest⟩ := List.cons.inj hts
      exact h.2 front u rest hrest

theorem forall_prefix_cons {P : List Token → Prop} :
    (∀ front, front <+: t :: ts → P front) ↔
      P [] ∧ ∀ front, front <+: ts → P (t :: front) := by
  constructor
  · intro h
    refine ⟨h [] List.nil_prefix, ?_⟩
    intro front hfront
    exact h (t :: front) ((List.prefix_cons_inj t).mpr hfront)
  · intro h front hfront
    rcases List.prefix_cons_iff.mp hfront with rfl | ⟨rest, rfl, hrest⟩
    · exact h.1
    · exact h.2 rest hrest

theorem openings_cons (t : Token) (ts : List Token) :
    openings (t :: ts) = openings ts + if t.kind = .openBrace then 1 else 0 := by
  simp [openings, List.count_cons]

theorem closings_cons (t : Token) (ts : List Token) :
    closings (t :: ts) = closings ts + if t.kind = .closeBrace then 1 else 0 := by
  simp [closings, List.count_cons]

end Splits

section Segments

variable {t : Token} {ts : List Token} {p : Position} {depth : Nat} {previous : Option Kind}
  {source : List Char}

theorem segmented_nil : Segmented p depth previous [] ↔ depth = 0 := by
  constructor
  · intro h
    exact (Nat.add_eq_zero_iff.mp h.balanced.symm).1
  · intro h
    subst h
    refine ⟨by simp, .nil, by simp, by simp, ?_, rfl⟩
    intro front hfront
    obtain rfl := List.prefix_nil.mp hfront
    exact Nat.zero_le _

/-- Counting on behind the first token: nothing is closed that is not open. -/
theorem closed_cons_iff :
    (∀ front, front <+: t :: ts → closings front ≤ depth + openings front) ↔
      (t.kind = .closeBrace → depth ≠ 0) ∧
        ∀ front, front <+: ts → closings front ≤ t.kind.depthAfter depth + openings front := by
  rw [forall_prefix_cons]
  simp only [closings_cons, openings_cons]
  constructor
  · intro h
    have hone := h.2 [] List.nil_prefix
    refine ⟨?_, ?_⟩
    · intro hk hdepth
      simp [closings, openings, hk, hdepth] at hone
    · intro front hfront
      have hmore := h.2 front hfront
      cases hk : t.kind <;> simp [hk, Kind.depthAfter] at hmore ⊢ <;> omega
  · intro h
    refine ⟨Nat.zero_le _, ?_⟩
    intro front hfront
    have hmore := h.2 front hfront
    have hpos := h.1
    cases hk : t.kind <;> simp [hk, Kind.depthAfter] at hmore hpos ⊢ <;> omega

theorem balanced_cons_iff (h : t.kind = .closeBrace → depth ≠ 0) :
    closings (t :: ts) = depth + openings (t :: ts) ↔
      closings ts = t.kind.depthAfter depth + openings ts := by
  rw [closings_cons, openings_cons]
  cases hk : t.kind <;> simp [hk, Kind.depthAfter] at h ⊢ <;> omega

theorem apart_cons_iff (hspelled : ∀ u ∈ ts, u.kind.Spells u.lexeme.toList) :
    (t :: ts).IsChain Apart ↔ Lexeme.Stops t.kind (text ts) ∧ ts.IsChain Apart := by
  cases ts with
  | nil =>
    have hstops : Lexeme.Stops t.kind (text []) := by
      cases hk : t.kind <;> simp [Lexeme.Stops, text]
    exact ⟨fun _ => ⟨hstops, .nil⟩, fun _ => .singleton t⟩
  | cons u ts =>
    have hu := hspelled u List.mem_cons_self
    rw [List.isChain_cons_cons, ← stops_iff_apart hu (text ts)]
    rfl

theorem segmented_cons :
    Segmented p depth previous (t :: ts) ↔
      t.position = p ∧ (t.kind = .closeBrace → depth ≠ 0) ∧
        t.kind.Spells t.lexeme.toList ∧
        (t.lexeme.toList = ['-'] → t.kind = Lexeme.minus previous) ∧
        Lexeme.Stops t.kind (text ts) ∧
        Segmented (p.advance t.lexeme.toList) (t.kind.depthAfter depth) (lookback previous t.kind)
          ts := by
  constructor
  · intro h
    obtain ⟨hspelled, hapart, hplaced, hsigned, hclosed, hbalanced⟩ := h
    obtain ⟨hspells, hspelled⟩ := List.forall_mem_cons.mp hspelled
    obtain ⟨hstops, hapart⟩ := (apart_cons_iff hspelled).mp hapart
    obtain ⟨hplace, hplaced⟩ := forall_split_cons.mp hplaced
    obtain ⟨hminus, hsigned⟩ := forall_split_cons.mp hsigned
    obtain ⟨hclose, hclosed⟩ := closed_cons_iff.mp hclosed
    refine ⟨hplace, hclose, hspells, hminus, hstops, hspelled, hapart, ?_, hsigned, hclosed,
      (balanced_cons_iff hclose).mp hbalanced⟩
    intro front u rest hts
    rw [hplaced front u rest hts, text, List.flatMap_cons, Position.advance_append]
    rfl
  · intro h
    obtain ⟨hplace, hclose, hspells, hminus, hstops, hrest⟩ := h
    refine ⟨List.forall_mem_cons.mpr ⟨hspells, hrest.spelled⟩,
      (apart_cons_iff hrest.spelled).mpr ⟨hstops, hrest.apart⟩,
      forall_split_cons.mpr ⟨hplace, ?_⟩, forall_split_cons.mpr ⟨hminus, hrest.signed⟩,
      closed_cons_iff.mpr ⟨hclose, hrest.closed⟩, (balanced_cons_iff hclose).mpr hrest.balanced⟩
    intro front u rest hts
    rw [hrest.placed front u rest hts, text, text, List.flatMap_cons, Position.advance_append]

/-- Reading one by one and segmenting a text are the same. The induction is on the tokens. -/
theorem reads_iff_segmented :
    Reads ts p depth previous source ↔ source = text ts ∧ Segmented p depth previous ts := by
  induction ts generalizing p depth previous source with
  | nil => rw [segmented_nil, Reads, text, List.flatMap_nil]
  | cons t ts ih =>
    rw [segmented_cons, Reads]
    constructor
    · intro h
      obtain ⟨hplace, hclose, hspells, hminus, rest, rfl, hstops, hread⟩ := h
      obtain ⟨rfl, hrest⟩ := ih.mp hread
      exact ⟨rfl, hplace, hclose, hspells, hminus, hstops, hrest⟩
    · intro h
      obtain ⟨rfl, hplace, hclose, hspells, hminus, hstops, hrest⟩ := h
      exact ⟨hplace, hclose, hspells, hminus, text ts, rfl, hstops, ih.mpr ⟨rfl, hrest⟩⟩

end Segments

def Negates (front : List Token) : Prop :=
  ∀ u ∈ (significant front).getLast?, u.kind.isOperator = true ∨ u.kind = .openBrace

structure Scanned (source : String) (ts : List Token) : Prop where
  lossless : String.join (ts.map Token.lexeme) = source
  spelled : ∀ t ∈ ts, t.kind.Spells t.lexeme.toList
  apart : ts.IsChain fun t u =>
    ¬(t.kind = .whitespace ∧ u.kind = .whitespace) ∧
      ¬(t.kind.isOperand = true ∧ u.kind.isOperand = true)
  placed : ∀ front t rest, ts = front ++ t :: rest →
    t.position = Position.start.advance (text front) ∧
      t.position.line = 1 + (text front).count '\n' ∧
      t.position.offset = 1 + ((text front).reverse.takeWhile fun c => c ≠ '\n').length
  signed : ∀ front t rest, ts = front ++ t :: rest → t.lexeme = "-" →
    (Negates front → t.kind = .neg) ∧ (¬Negates front → t.kind = .sub)
  closed : ∀ front, front <+: ts →
    (front.map Token.kind).count .closeBrace ≤ (front.map Token.kind).count .openBrace
  balanced : (ts.map Token.kind).count .closeBrace = (ts.map Token.kind).count .openBrace

/-- What is remembered for a later minus is the last token that is not whitespace. -/
theorem foldl_lookback (front : List Token) :
    front.foldl (fun k u => lookback k u.kind) none =
      (significant front).getLast?.map Token.kind := by
  induction front using List.reverseRecOn with
  | nil => rfl
  | append_singleton front u ih =>
    rw [List.foldl_append, List.foldl_cons, List.foldl_nil, ih, significant_append]
    by_cases hu : u.kind = .whitespace
    · simp [lookback, significant, isWhitespace, hu]
    · simp [lookback, significant, isWhitespace, hu]

theorem minus_getLast (front : List Token) :
    (Negates front → Lexeme.minus ((significant front).getLast?.map Token.kind) = .neg) ∧
      (¬Negates front → Lexeme.minus ((significant front).getLast?.map Token.kind) = .sub) := by
  unfold Negates
  cases (significant front).getLast? with
  | none => simp [Lexeme.minus]
  | some u =>
    by_cases hu : u.kind.isOperator = true ∨ u.kind = .openBrace
    · simp [Lexeme.minus, hu]
    · simp [Lexeme.minus, hu]

theorem toList_join_lexemes (ts : List Token) :
    (String.join (ts.map Token.lexeme)).toList = text ts := by
  rw [String.toList_join, List.flatMap_map]
  rfl

theorem scan_eq_ok_iff {source : String} {ts : List Token} :
    scan source = .ok ts ↔ source.toList = text ts ∧ Segmented .start 0 none ts := by
  rw [← reads_iff_segmented]
  exact ⟨reads_of_scanFrom, scanFrom_of_reads⟩

theorem Segmented.scanned {source : String} {ts : List Token} (hsource : source.toList = text ts)
    (h : Segmented .start 0 none ts) : Scanned source ts where
  lossless := String.toList_inj.mp (by rw [toList_join_lexemes, hsource])
  spelled := h.spelled
  apart := h.apart
  placed := by
    intro front t rest hts
    have hplace := h.placed front t rest hts
    refine ⟨hplace, ?_, ?_⟩
    · rw [hplace, Position.line_advance_start]
    · rw [hplace, Position.offset_advance_start]
  signed := by
    intro front t rest hts hlexeme
    have hkind := h.signed front t rest hts (by rw [hlexeme]; rfl)
    rw [foldl_lookback] at hkind
    rw [hkind]
    exact minus_getLast front
  closed := by
    intro front hfront
    have hle := h.closed front hfront
    rwa [Nat.zero_add] at hle
  balanced := by
    have heq := h.balanced
    rwa [Nat.zero_add] at heq

theorem Scanned.segmented {source : String} {ts : List Token} (h : Scanned source ts) :
    Segmented .start 0 none ts where
  spelled := h.spelled
  apart := h.apart
  placed := fun front t rest hts => (h.placed front t rest hts).1
  signed := by
    intro front t rest hts hlexeme
    have hminus := minus_getLast front
    have hkind := h.signed front t rest hts (String.toList_inj.mp hlexeme)
    rw [foldl_lookback]
    by_cases hneg : Negates front
    · rw [hkind.1 hneg, hminus.1 hneg]
    · rw [hkind.2 hneg, hminus.2 hneg]
  closed := by
    intro front hfront
    rw [Nat.zero_add]
    exact h.closed front hfront
  balanced := by
    rw [Nat.zero_add]
    exact h.balanced

theorem scan_iff_scanned {source : String} {ts : List Token} :
    scan source = .ok ts ↔ Scanned source ts := by
  rw [scan_eq_ok_iff]
  constructor
  · intro h
    exact h.2.scanned h.1
  · intro h
    refine ⟨?_, h.segmented⟩
    rw [← h.lossless, toList_join_lexemes]

/-- A scan succeeds exactly with the tokens that the source is rightly cut into, and there is only
one way to cut it. -/
theorem scan_finds_only_segmentation (source : String) :
    (∀ ts, scan source = .ok ts ↔ Scanned source ts) ∧
      ∀ ts ts', Scanned source ts → Scanned source ts' → ts = ts' := by
  refine ⟨fun ts => scan_iff_scanned, ?_⟩
  intro ts ts' h h'
  have hscan := scan_iff_scanned.mpr h
  rw [scan_iff_scanned.mpr h'] at hscan
  exact (Except.ok.inj hscan).symm

end Calculator.Token
