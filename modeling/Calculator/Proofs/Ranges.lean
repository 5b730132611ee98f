import Calculator.Proofs.Counters
import Calculator.Proofs.Faults

/-!
The range of the counters. A scan counts places and open groups as it goes along, the tokens count
on over their lexemes, and the check counts open groups again. For a source that leaves room in a
machine word, every count stays within the size of the source, also where it is kept in machine
words, and the places of the tokens are in the order of reading.
-/
namespace Calculator

open Grammar

namespace Token

/-- The scan of the source has read the tokens and stands at the place, inside some open groups and
in front of the text. -/
inductive Underway (source : String) : List Token → Position → Nat → List Char → Prop
  | start : Underway source [] .start 0 source.toList
  | read {front : List Token} {p : Position} {depth : Nat} {c : Char} {rest : List Char}
      {l : Lexeme} : Underway source front p depth (c :: rest) →
      Lexeme.first ((significant front).getLast?.map Token.kind) p c rest = .ok l →
      (l.kind = .closeBrace → depth ≠ 0) →
      Underway source (front ++ [⟨l.kind, String.ofList l.text, p⟩]) (p.advance l.text)
        (l.kind.depthAfter depth) l.rest

structure ScanInRange (source : String) (front : List Token) (p : Position) (depth : Nat)
    (rest : List Char) : Prop where
  places : CountsWithin source p rest
  stops : ∀ t ∈ front, CountsWithin source t.position t.lexeme.toList
  rising : front.Pairwise fun t u => t.position.Before u.position
  behind : ∀ t ∈ front, t.position.Before p
  depth_le : depth ≤ source.length
  words : (wordDepth front).toNat = depth

section Scans

variable {source : String} {front ts : List Token} {p : Position} {depth : Nat} {rest : List Char}

theorem getLast?_significant_append_singleton (front : List Token) (t : Token) :
    (significant (front ++ [t])).getLast?.map Token.kind =
      lookback ((significant front).getLast?.map Token.kind) t.kind := by
  rw [← foldl_lookback, ← foldl_lookback, List.foldl_append]
  rfl

/-- The scan is what it has read and what it finds from there on. -/
theorem Underway.scan_eq (h : Underway source front p depth rest) :
    scan source =
      (scanFrom p depth ((significant front).getLast?.map Token.kind) rest).map (front ++ ·) := by
  induction h with
  | start =>
    change scan source = (scan source).map id
    rw [Except.map_id]
    rfl
  | @read front p depth c rest l _ hfirst hclose ih =>
    have hopen : ¬(l.kind = .closeBrace ∧ depth = 0) := fun hend => hclose hend.1 hend.2
    rw [ih, scanFrom_cons_ok hfirst, if_neg hopen, getLast?_significant_append_singleton]
    cases scanFrom (p.advance l.text) (l.kind.depthAfter depth)
        (lookback ((significant front).getLast?.map Token.kind) l.kind) l.rest with
    | error e => rfl
    | ok tail => simp [Except.map]

/-- A scan that succeeds goes on to the end of the source. The induction is on the tokens that are
still to be read. -/
theorem Underway.finish (h : Underway source front p depth rest)
    (hscan : scanFrom p depth ((significant front).getLast?.map Token.kind) rest = .ok ts) :
    ∃ q, Underway source (front ++ ts) q 0 [] := by
  induction ts generalizing front p depth rest with
  | nil =>
    obtain ⟨rfl, rfl⟩ := reads_of_scanFrom hscan
    exact ⟨p, by rwa [List.append_nil]⟩
  | cons t ts ih =>
    cases rest with
    | nil =>
      obtain ⟨-, -, hspells, -, tail, hnone, -⟩ := reads_of_scanFrom hscan
      exact absurd (List.append_eq_nil_iff.mp hnone.symm).1 hspells.ne_nil
    | cons c rest =>
      obtain ⟨l, tail, hfirst, hclose, htail, hts⟩ := scanFrom_cons_eq_ok_iff.mp hscan
      cases hts
      rw [List.append_cons]
      refine ih (h.read hfirst hclose) ?_
      rw [getLast?_significant_append_singleton]
      exact htail

/-- The places are told by the text that has been read, and no more groups are open than there are
characters in it. -/
theorem Underway.cut (h : Underway source front p depth rest) :
    source.toList = text front ++ rest ∧ p = Position.start.advance (text front) ∧
      depth ≤ (text front).length := by
  induction h with
  | start => exact ⟨rfl, rfl, Nat.zero_le _⟩
  | @read front p depth c rest l _ hfirst _ ih =>
    obtain ⟨hsource, hplace, hdepth⟩ := ih
    have htext : text (front ++ [⟨l.kind, String.ofList l.text, p⟩]) = text front ++ l.text := by
      simp [text]
    have hpos := List.length_pos_iff.mpr (Lexeme.text_ne_nil hfirst)
    have hafter : l.kind.depthAfter depth ≤ depth + 1 := by
      unfold Kind.depthAfter
      split <;> omega
    refine ⟨?_, ?_, ?_⟩
    · rw [htext, hsource, ← Lexeme.text_append_rest hfirst, List.append_assoc]
    · rw [htext, Position.advance_append, ← hplace]
    · rw [htext, List.length_append]
      omega

theorem Underway.depth_le (h : Underway source front p depth rest) : depth ≤ source.length := by
  obtain ⟨hsource, -, hdepth⟩ := h.cut
  rw [← String.length_toList, hsource, List.length_append]
  omega

theorem Underway.countsWithin (hsize : source.length < 2 ^ 64 - 1)
    (h : Underway source front p depth rest) : CountsWithin source p rest := by
  obtain ⟨hsource, rfl, -⟩ := h.cut
  exact countsWithin_of_cut hsize (v := []) (by rw [hsource, List.append_nil])

/-- Reading one more token keeps everything in range. -/
theorem ScanInRange.read {c : Char} {l : Lexeme} {previous : Option Kind}
    (hsize : source.length < 2 ^ 64 - 1) (h : ScanInRange source front p depth (c :: rest))
    (hfirst : Lexeme.first previous p c rest = .ok l) (hclose : l.kind = .closeBrace → depth ≠ 0)
    (hnext : Underway source (front ++ [⟨l.kind, String.ofList l.text, p⟩]) (p.advance l.text)
      (l.kind.depthAfter depth) l.rest) :
    ScanInRange source (front ++ [⟨l.kind, String.ofList l.text, p⟩]) (p.advance l.text)
      (l.kind.depthAfter depth) l.rest where
  places := hnext.countsWithin hsize
  stops := by
    refine List.forall_mem_append.mpr ⟨h.stops, List.forall_mem_singleton.mpr ?_⟩
    intro part hpart
    refine h.places part (hpart.trans ?_)
    rw [String.toList_ofList, ← Lexeme.text_append_rest hfirst]
    exact List.prefix_append l.text l.rest
  rising := by
    refine List.pairwise_append.mpr ⟨h.rising, List.pairwise_singleton .., fun t ht u hu => ?_⟩
    rw [List.mem_singleton.mp hu]
    exact h.behind t ht
  behind := by
    have hlast := Position.before_advance (p := p) (Lexeme.text_ne_nil hfirst)
    refine List.forall_mem_append.mpr ⟨fun t ht => ?_, List.forall_mem_singleton.mpr hlast⟩
    exact (h.behind t ht).trans hlast
  depth_le := hnext.depth_le
  words := by
    have hless := h.depth_le
    rw [wordDepth_append_singleton, Kind.toNat_wordDepthAfter, h.words]
    · rwa [h.words]
    · rw [h.words]
      omega

theorem Underway.inRange (hsize : source.length < 2 ^ 64 - 1)
    (h : Underway source front p depth rest) : ScanInRange source front p depth rest := by
  induction h with
  | start =>
    exact ⟨Underway.start.countsWithin hsize, nofun, .nil, nofun, Nat.zero_le _, rfl⟩
  | read hbefore hfirst hclose ih => exact ih.read hsize hfirst hclose (hbefore.read hfirst hclose)

theorem inRange_of_scan (hsize : source.length < 2 ^ 64 - 1) (h : scan source = .ok ts) :
    ∃ p, ScanInRange source ts p 0 [] := by
  obtain ⟨p, hend⟩ := Underway.start.finish h
  exact ⟨p, hend.inRange hsize⟩

/-- A scan finds no more tokens than there are characters. -/
theorem length_le_of_scan (h : scan source = .ok ts) : ts.length ≤ source.length := by
  obtain ⟨hsource, hsegmented⟩ := scan_eq_ok_iff.mp h
  have hcount : (ts.map fun t => t.lexeme.toList.length).length = ts.length := List.length_map _
  rw [← String.length_toList, hsource, text, List.length_flatMap, ← hcount]
  refine List.length_le_sum_of_one_le _ (List.forall_mem_map.mpr fun t ht => ?_)
  exact List.length_pos_iff.mpr (hsegmented.spelled t ht).ne_nil

theorem length_le_of_prefix_significant (h : scan source = .ok ts)
    (hfront : front <+: significant ts) : front.length ≤ source.length :=
  calc
    front.length ≤ (significant ts).length := hfront.length_le
    _ ≤ ts.length := List.length_filter_le _ ts
    _ ≤ source.length := length_le_of_scan h

end Scans

section Checks

variable {source : String} {front ts : List Token} {s : State}

structure CheckInRange (source : String) (front : List Token) (s : State) : Prop where
  stop : s.stop.Within source
  depth_le : s.depth ≤ source.length
  words : (wordDepth front).toNat = s.depth
  opened : ∀ t s', s.step t = .ok s' → t.kind = .closeBrace → s.depth ≠ 0

theorem depth_le_of_advance (h : advance .initial front = .ok s) : s.depth ≤ front.length := by
  have hcount := State.settled_initial.advance_depth h
  have hopen := List.count_le_length (a := Kind.openBrace) (l := front.map Token.kind)
  rw [List.length_map] at hopen
  change s.depth + _ = 0 + _ at hcount
  omega

/-- The check counts as a machine word does, since it closes only groups that are open. -/
theorem wordDepth_of_advance (hsize : front.length < 2 ^ 64) (h : advance .initial front = .ok s) :
    (wordDepth front).toNat = s.depth := by
  induction front using List.reverseRecOn generalizing s with
  | nil =>
    cases h
    rfl
  | append_singleton front t ih =>
    rw [List.length_append, List.length_singleton] at hsize
    obtain ⟨mid, hfront, hlast⟩ := advance_append_eq_ok_iff.mp h
    obtain ⟨next, hstep, hnone⟩ := advance_cons_eq_ok_iff.mp hlast
    cases hnone
    have hcounted := ih (by omega) hfront
    have hless := depth_le_of_advance hfront
    have hpos := (State.settled_initial.advance hfront).depth_pos hstep
    obtain ⟨-, rfl⟩ := State.step_eq_ok_iff.mp hstep
    rw [wordDepth_append_singleton, Kind.toNat_wordDepthAfter, hcounted]
    · rfl
    · rw [hcounted]
      exact fun hk => (hpos hk).ne'
    · omega

theorem checkInRange_of_scan (hsize : source.length < 2 ^ 64 - 1) (h : scan source = .ok ts)
    (hfront : front <+: significant ts) (hrun : advance .initial front = .ok s) :
    CheckInRange source front s where
  stop := by
    obtain ⟨p, hrange⟩ := inRange_of_scan hsize h
    rw [stop_of_advance hrun]
    cases hlast : front.getLast? with
    | none => exact Position.within_advance_start (u := []) rfl
    | some t =>
      have ht : t ∈ ts := List.mem_of_mem_filter (hfront.subset (List.mem_of_getLast? hlast))
      exact (hrange.stops t ht _ List.prefix_rfl).1
  depth_le := (depth_le_of_advance hrun).trans (length_le_of_prefix_significant h hfront)
  words := by
    have hless := length_le_of_prefix_significant h hfront
    exact wordDepth_of_advance (by omega) hrun
  opened := fun _ _ hstep hk =>
    ((State.settled_initial.advance hrun).depth_pos hstep hk).ne'

theorem position_of_finish {e : SyntaxError} (h : s.finish = .error e) : e.position = s.stop := by
  unfold State.finish at h
  split at h
  · cases h
    rfl
  · split at h
    · cases h
      rfl
    · cases h

/-- The end that comes too early stands behind the last token that is not whitespace. -/
theorem position_of_unexpectedEnd {expected : KindSet} {p : Position}
    (h : check ts = .error (.unexpectedEnd expected p)) :
    p = ((significant ts).getLast?.map stop).getD .start := by
  rcases check_eq_error_iff.mp h with ⟨_, t, _, s, -, -, hstep⟩ | ⟨s, hrun, hend⟩
  · cases (State.step_eq_error_iff.mp hstep).2
  · exact (position_of_finish hend).trans (stop_of_advance hrun)

end Checks

/-- For a source that leaves room in a machine word, all counters of the scan and of the check stay
within the size of the source and show the same in machine words, and the places of the tokens are
in the order of reading. For any tokens at all, an end that comes too early is counted from the last
one that is not whitespace, and stands behind its place if the words have room for its text. -/
theorem counters_in_range :
    (∀ source : String, source.length < 2 ^ 64 - 1 →
      (∀ front p depth rest, Underway source front p depth rest →
        scan source = (scanFrom p depth ((significant front).getLast?.map Token.kind) rest).map
          (front ++ ·) ∧
        ScanInRange source front p depth rest) ∧
      (∀ e, scan source = .error e → e.position.Within source) ∧
      ∀ ts, scan source = .ok ts →
        (∃ p, Underway source ts p 0 []) ∧
        (∀ t ∈ ts, CountsWithin source t.position t.lexeme.toList) ∧
        (ts.Pairwise fun t u => t.position.Before u.position) ∧
        (∀ front s, front <+: significant ts → advance .initial front = .ok s →
          CheckInRange source front s) ∧
        ∀ e, check ts = .error e → e.position.Within source) ∧
    ∀ ts expected p, check ts = .error (.unexpectedEnd expected p) →
      p = ((significant ts).getLast?.map stop).getD .start ∧
      ∀ t ∈ (significant ts).getLast?, t.lexeme ≠ "" →
        t.position.offset + t.lexeme.length < 2 ^ 64 →
        t.position.line + t.lexeme.length < 2 ^ 64 →
        t.position.Before p ∧
        ((WordPosition.ofPosition t.position).advance t.lexeme.toList).toPosition = p ∧
        ∀ part, part <+: t.lexeme.toList →
          ((WordPosition.ofPosition t.position).advance part).toPosition =
            t.position.advance part := by
  constructor
  · intro source hsize
    refine ⟨fun _ _ _ _ h => ⟨h.scan_eq, h.inRange hsize⟩, fun e h => ?_, fun ts h => ?_⟩
    · obtain ⟨u, v, hcut, hplace, -⟩ := scan_marks h
      exact hplace ▸ Position.within_advance_start hcut
    · obtain ⟨p, hend⟩ := Underway.start.finish h
      have hrange := hend.inRange hsize
      refine ⟨⟨p, hend⟩, hrange.stops, hrange.rising,
        fun _ _ hfront hrun => checkInRange_of_scan hsize h hfront hrun, fun e hcheck => ?_⟩
      obtain ⟨u, v, hcut, hplace, -⟩ := marks_of_check h hcheck
      exact hplace ▸ Position.within_advance_start hcut
  · intro ts expected p hcheck
    have hend := position_of_unexpectedEnd hcheck
    refine ⟨hend, fun t ht hne hoffset hline => ?_⟩
    rw [ht] at hend
    obtain rfl : p = t.stop := hend
    rw [← String.length_toList] at hoffset hline
    have hwords := fun part => WordPosition.toPosition_advance_ofPosition (u := part) hoffset hline
    exact ⟨Position.before_advance (mt String.toList_eq_nil_iff.mp hne), hwords _ List.prefix_rfl,
      hwords⟩

/-- The tokens of a first line that leaves an operand to the second. -/
def openSum : List Token :=
  [⟨.openBrace, "(", ⟨1, 1⟩⟩, ⟨.number, "1", ⟨2, 1⟩⟩, ⟨.closeBrace, ")", ⟨3, 1⟩⟩,
    ⟨.add, "+", ⟨4, 1⟩⟩, ⟨.whitespace, "\n", ⟨5, 1⟩⟩]

/-- A token over two lines, placed where the words have just enough room for its characters. -/
def lastRoom : Token := ⟨.neg, "-\n-", ⟨2 ^ 64 - 4, 2 ^ 64 - 4⟩⟩

theorem counters_in_range_openSum :
    scan "(1)+\n" = .ok openSum ∧
      (openSum.Pairwise fun t u => t.position.Before u.position) ∧
      (∀ t ∈ openSum, CountsWithin "(1)+\n" t.position t.lexeme.toList) ∧
      check openSum = .error (.unexpectedEnd .operandStart ⟨5, 1⟩) ∧
      Position.Within ⟨5, 1⟩ "(1)+\n" ∧
      (∃ s, advance .initial (openSum.take 2) = .ok s ∧ CheckInRange "(1)+\n" (openSum.take 2) s) ∧
      check [lastRoom] = .error (.unexpectedEnd .operandStart ⟨2, 2 ^ 64 - 3⟩) ∧
      lastRoom.position.Before ⟨2, 2 ^ 64 - 3⟩ ∧
      ((WordPosition.ofPosition lastRoom.position).advance lastRoom.lexeme.toList).toPosition =
        ⟨2, 2 ^ 64 - 3⟩ := by
  have hscan : scan "(1)+\n" = .ok openSum := by cbv
  have hcheck : check openSum = .error (.unexpectedEnd .operandStart ⟨5, 1⟩) := rfl
  have hend : check [lastRoom] = .error (.unexpectedEnd .operandStart ⟨2, 2 ^ 64 - 3⟩) := rfl
  obtain ⟨hsource, htokens⟩ := counters_in_range
  obtain ⟨-, -, hfound⟩ := hsource "(1)+\n" (by decide)
  obtain ⟨-, hstops, hrising, hstates, herror⟩ := hfound openSum hscan
  obtain ⟨-, hlast⟩ := htokens [lastRoom] _ _ hend
  obtain ⟨hbefore, hwords, -⟩ := hlast lastRoom rfl (by decide) (by decide) (by decide)
  exact ⟨hscan, hrising, hstops, hcheck, herror _ hcheck,
    ⟨_, rfl, hstates _ _ (by decide) rfl⟩, hend, hbefore, hwords⟩

end Token

end Calculator
