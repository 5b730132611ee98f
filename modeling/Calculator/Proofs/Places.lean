import Calculator.Position

/-!
Where a text ends, in closed form: the line is told by the line feeds passed, and the column by the
characters behind the last of them.
-/
namespace Calculator.Position

theorem advance_append_singleton (p : Position) (text : List Char) (c : Char) :
    p.advance (text ++ [c]) = (p.advance text).next c := by
  rw [advance_append]
  rfl

theorem line_advance_start (text : List Char) :
    (start.advance text).line = 1 + text.count '\n' := advance_line start text

/-- By induction from the end of the text, where the current line grows. -/
theorem offset_advance_start (text : List Char) :
    (start.advance text).offset = 1 + (text.reverse.takeWhile fun c => c ≠ '\n').length := by
  induction h : text.reverse generalizing text with
  | nil =>
    rw [List.reverse_eq_nil_iff.mp h]
    rfl
  | cons c front ih =>
    have htext : text = front.reverse ++ [c] := by
      rw [← List.reverse_reverse text, h, List.reverse_cons]
    have hfront := ih front.reverse (List.reverse_reverse front)
    rw [htext, advance_append_singleton]
    by_cases hc : c = '\n'
    · simp [next, hc]
    · simp only [next, if_neg hc, hfront]
      rw [List.takeWhile_cons_of_pos (by simpa using hc), List.length_cons]
      omega

end Calculator.Position
