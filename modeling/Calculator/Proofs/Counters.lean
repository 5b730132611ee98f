import Calculator.Proofs.Places
import Calculator.Token
import Mathlib.Algebra.Group.Nat.Defs

/-!
Counting places and open groups in machine words. A word that is counted up behind its largest value
starts again at zero, and one that is counted down at zero goes to the largest value. As long as a
text is short enough, neither happens, and the words show the same places and groups as the natural
numbers.
-/
namespace Calculator

namespace Position

variable {p q r : Position} {text u v : List Char}

/-- In the order of reading: on an earlier line, or on the same line in an earlier column. -/
def Before (p q : Position) : Prop := p.line < q.line ∨ p.line = q.line ∧ p.offset < q.offset

theorem Before.trans (h : p.Before q) (h' : q.Before r) : p.Before r := by
  unfold Before at *
  omega

theorem before_next (p : Position) (c : Char) : p.Before (p.next c) := by
  unfold next Before
  split <;> simp

theorem before_advance (h : text ≠ []) : p.Before (p.advance text) := by
  induction text generalizing p with
  | nil => exact absurd rfl h
  | cons c rest ih =>
    cases rest with
    | nil => exact before_next p c
    | cons d tail => exact (before_next p c).trans (ih (List.cons_ne_nil d tail))

/-- A place inside the source or behind its last character, as far as its length and its line feeds
tell. -/
def Within (p : Position) (source : String) : Prop :=
  (1 ≤ p.offset ∧ p.offset ≤ source.length + 1) ∧
    1 ≤ p.line ∧ p.line ≤ source.toList.count '\n' + 1

theorem within_advance_start {source : String} (h : source.toList = u ++ v) :
    (start.advance u).Within source := by
  have hlength : source.length = u.length + v.length := by
    rw [← String.length_toList, h, List.length_append]
  have hcolumn := List.takeWhile_sublist (l := u.reverse) fun c => decide (c ≠ '\n')
  have hshort := hcolumn.length_le
  rw [List.length_reverse] at hshort
  rw [Within, line_advance_start, offset_advance_start, h, List.count_append]
  omega

end Position

structure WordPosition where
  offset : UInt64
  line : UInt64

namespace WordPosition

def start : WordPosition := ⟨1, 1⟩

def next (p : WordPosition) (c : Char) : WordPosition :=
  if c = '\n' then ⟨1, p.line + 1⟩ else ⟨p.offset + 1, p.line⟩

def advance (p : WordPosition) (text : List Char) : WordPosition := text.foldl next p

def toPosition (p : WordPosition) : Position := ⟨p.offset.toNat, p.line.toNat⟩

def ofPosition (p : Position) : WordPosition := ⟨.ofNat p.offset, .ofNat p.line⟩

section Counting

variable {p : WordPosition} {q : Position} {text u v : List Char}

theorem advance_append (p : WordPosition) (front rest : List Char) :
    p.advance (front ++ rest) = (p.advance front).advance rest := List.foldl_append

@[simp] theorem ofPosition_toPosition (p : WordPosition) : ofPosition p.toPosition = p := by
  simp [ofPosition, toPosition]

theorem toPosition_ofPosition (hoffset : q.offset < 2 ^ 64) (hline : q.line < 2 ^ 64) :
    (ofPosition q).toPosition = q := by
  simp only [ofPosition, toPosition, UInt64.toNat_ofNat', Nat.mod_eq_of_lt hoffset,
    Nat.mod_eq_of_lt hline]

theorem toPosition_next (hoffset : p.offset.toNat + 1 < 2 ^ 64) (hline : p.line.toNat + 1 < 2 ^ 64)
    (c : Char) : (p.next c).toPosition = p.toPosition.next c := by
  have hcolumn : (p.offset + 1).toNat = p.offset.toNat + 1 := by
    rw [UInt64.toNat_add, UInt64.toNat_one, Nat.mod_eq_of_lt hoffset]
  have hfeed : (p.line + 1).toNat = p.line.toNat + 1 := by
    rw [UInt64.toNat_add, UInt64.toNat_one, Nat.mod_eq_of_lt hline]
  unfold next Position.next
  split
  · simp only [toPosition, hfeed, UInt64.toNat_one]
  · simp only [toPosition, hcolumn]

/-- No count starts again at zero while a text is passed that is short enough for both words. The
induction is on the text; behind a line feed the column has even more room than before. -/
theorem toPosition_advance (hoffset : p.offset.toNat + text.length < 2 ^ 64)
    (hline : p.line.toNat + text.length < 2 ^ 64) :
    (p.advance text).toPosition = p.toPosition.advance text := by
  induction text generalizing p with
  | nil => rfl
  | cons c rest ih =>
    rw [List.length_cons] at hoffset hline
    have hnext := toPosition_next (p := p) (by omega) (by omega) c
    have hcolumn := congrArg Position.offset hnext
    have hrow := congrArg Position.line hnext
    change (p.next c).offset.toNat = _ at hcolumn
    change (p.next c).line.toNat = _ at hrow
    change ((p.next c).advance rest).toPosition = _
    rw [ih, hnext, Position.advance_cons]
    · rw [hcolumn, Position.next]
      split <;> simp only [toPosition] <;> omega
    · rw [hrow, Position.next]
      split <;> simp only [toPosition] <;> omega

/-- The words count on from a place as the numbers do, over every part of a short text. -/
theorem toPosition_advance_ofPosition (hoffset : q.offset + text.length < 2 ^ 64)
    (hline : q.line + text.length < 2 ^ 64) (hpart : u <+: text) :
    ((ofPosition q).advance u).toPosition = q.advance u := by
  have hplace := toPosition_ofPosition (q := q) (by omega) (by omega)
  have hcolumn : (ofPosition q).offset.toNat = q.offset := congrArg Position.offset hplace
  have hrow : (ofPosition q).line.toNat = q.line := congrArg Position.line hplace
  have hless := hpart.length_le
  rw [toPosition_advance (by omega) (by omega), hplace]

theorem toPosition_advance_start (h : u.length < 2 ^ 64 - 1) :
    (start.advance u).toPosition = Position.start.advance u := by
  have hone : start.offset.toNat = 1 ∧ start.line.toNat = 1 := ⟨rfl, rfl⟩
  exact toPosition_advance (by omega) (by omega)

end Counting

end WordPosition

/-- While one counts on from `p` over the text, the places stay within the source, and machine words
show them all. -/
def CountsWithin (source : String) (p : Position) (text : List Char) : Prop :=
  ∀ part, part <+: text → (p.advance part).Within source ∧
    ((WordPosition.ofPosition p).advance part).toPosition = p.advance part

/-- From the place of a part of the source, one counts on over what follows. -/
theorem countsWithin_of_cut {source : String} (hsize : source.length < 2 ^ 64 - 1)
    {u text v : List Char} (h : source.toList = u ++ (text ++ v)) :
    CountsWithin source (Position.start.advance u) text := by
  intro part hpart
  obtain ⟨rest, rfl⟩ := hpart
  have hcut : source.toList = (u ++ part) ++ (rest ++ v) := by
    rw [h, List.append_assoc, List.append_assoc]
  have hlength := congrArg List.length hcut
  rw [String.length_toList, List.length_append, List.length_append] at hlength
  have hplace := WordPosition.toPosition_advance_start (u := u) (by omega)
  constructor
  · rw [← Position.advance_append]
    exact Position.within_advance_start hcut
  · rw [← Position.advance_append, ← hplace, WordPosition.ofPosition_toPosition,
      ← WordPosition.advance_append]
    refine WordPosition.toPosition_advance_start ?_
    rw [List.length_append]
    omega

def Kind.wordDepthAfter (depth : UInt64) : Kind → UInt64
  | .openBrace => depth + 1
  | .closeBrace => depth - 1
  | _ => depth

theorem Kind.toNat_wordDepthAfter {k : Kind} {depth : UInt64}
    (hclose : k = .closeBrace → depth.toNat ≠ 0) (hroom : depth.toNat + 1 < 2 ^ 64) :
    (k.wordDepthAfter depth).toNat = k.depthAfter depth.toNat := by
  cases k
  case openBrace =>
    rw [wordDepthAfter, UInt64.toNat_add, UInt64.toNat_one, Nat.mod_eq_of_lt hroom]
    rfl
  case closeBrace =>
    have hpos := hclose rfl
    have hle : (1 : UInt64) ≤ depth := by
      rw [UInt64.le_iff_toNat_le, UInt64.toNat_one]
      omega
    rw [wordDepthAfter, UInt64.toNat_sub_of_le _ _ hle]
    rfl
  all_goals rfl

namespace Token

def wordDepth (ts : List Token) : UInt64 := ts.foldl (fun depth t => t.kind.wordDepthAfter depth) 0

theorem wordDepth_append_singleton (ts : List Token) (t : Token) :
    wordDepth (ts ++ [t]) = t.kind.wordDepthAfter (wordDepth ts) := by
  rw [wordDepth, List.foldl_append]
  rfl

end Token

end Calculator
