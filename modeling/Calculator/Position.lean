/-!
Places in a source text. Columns and lines count from one; a line ends at a line feed and at no
other character, and a column counts characters, not bytes.
-/
namespace Calculator

structure Position where
  offset : Nat
  line : Nat
deriving DecidableEq, Repr

namespace Position

def start : Position := ⟨1, 1⟩

instance : Inhabited Position := ⟨start⟩

def next (p : Position) (c : Char) : Position :=
  if c = '\n' then ⟨1, p.line + 1⟩ else ⟨p.offset + 1, p.line⟩

def advance (p : Position) (text : List Char) : Position := text.foldl next p

@[simp] theorem advance_nil (p : Position) : p.advance [] = p := rfl

@[simp] theorem advance_cons (p : Position) (c : Char) (text : List Char) :
    p.advance (c :: text) = (p.next c).advance text := rfl

theorem advance_append (p : Position) (front rest : List Char) :
    p.advance (front ++ rest) = (p.advance front).advance rest := by
  simp [advance, List.foldl_append]

/-- The line grows by the number of line feeds passed. -/
theorem advance_line (p : Position) (text : List Char) :
    (p.advance text).line = p.line + text.count '\n' := by
  induction text generalizing p with
  | nil => rfl
  | cons c rest ih =>
    by_cases hc : c = '\n'
    · simp [ih, next, hc, Nat.add_comm, Nat.add_left_comm]
    · simp [ih, next, hc]

end Position

end Calculator
