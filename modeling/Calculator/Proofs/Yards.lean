import Calculator.Postfix

/-!
What a rearrangement does with a token, in closed form. The tokens that leave the stack are a run at
its top: those that yield to an incoming operator once something has been put out, or those above
the latest open group.
-/
namespace Calculator.Yard

def emit (output : Array Token) (more : List Token) : Array Token := output ++ more.toArray

section Outputs

variable {output : Array Token} {t : Token}

@[simp] theorem toList_emit (output : Array Token) (more : List Token) :
    (emit output more).toList = output.toList ++ more := by
  simp [emit]

theorem emit_nil (output : Array Token) : emit output [] = output := by
  simp [emit]

theorem emit_cons (output : Array Token) (t : Token) (more : List Token) :
    emit output (t :: more) = emit (output.push t) more := by
  simp [emit]

theorem emit_append (output : Array Token) (more later : List Token) :
    emit output (more ++ later) = emit (emit output more) later := by
  simp [emit]

theorem isEmpty_emit (h : output.isEmpty = false) (more : List Token) :
    (emit output more).isEmpty = false := by
  simpa [emit, Array.isEmpty_iff] using fun hnone => absurd hnone (by simpa using h)

end Outputs

section Moves

variable {output : Array Token} {waiting : List Token}

/-- Nothing is released before something has been put out. -/
theorem release_of_isEmpty (h : output.isEmpty = true) (incoming : Kind) (waiting : List Token) :
    release incoming output waiting = ⟨output, waiting⟩ := by
  cases waiting with
  | nil => rfl
  | cons top below => simp [release, h]

/-- Afterwards the waiting tokens are released as long as they yield. -/
theorem release_of_nonempty (h : output.isEmpty = false) (incoming : Kind) (waiting : List Token) :
    release incoming output waiting =
      ⟨emit output (waiting.takeWhile fun t => t.kind.yieldsTo incoming),
        waiting.dropWhile fun t => t.kind.yieldsTo incoming⟩ := by
  induction waiting generalizing output with
  | nil => rw [release, List.takeWhile_nil, emit_nil, List.dropWhile_nil]
  | cons top below ih =>
    rw [release, h]
    by_cases hyields : top.kind.yieldsTo incoming = true
    · have hpushed : (output.push top).isEmpty = false := by simp
      simpa [hyields, emit_cons] using ih hpushed
    · simp [hyields, emit_nil]

/-- All that waits above the latest open group is put out, and the group is dropped. -/
theorem close_eq (output : Array Token) (waiting : List Token) :
    close output waiting =
      ⟨emit output (waiting.takeWhile fun t => t.kind ≠ .openBrace),
        (waiting.dropWhile fun t => t.kind ≠ .openBrace).tail⟩ := by
  induction waiting generalizing output with
  | nil => rw [close, List.takeWhile_nil, emit_nil, List.dropWhile_nil, List.tail_nil]
  | cons top below ih =>
    rw [close]
    by_cases htop : top.kind = .openBrace
    · simp [htop, emit_nil]
    · have hrest := ih (output.push top)
      simpa [htop, emit_cons] using hrest

end Moves

section Feeding

variable {t : Token}

theorem feed_operand (ht : t.kind.isOperand = true) (y : Yard) :
    y.feed t = ⟨y.output.push t, y.waiting⟩ := by
  unfold feed
  cases hk : t.kind <;> simp [hk, Kind.isOperand] at ht ⊢

theorem feed_operator (ht : t.kind.isOperator = true) (y : Yard) :
    y.feed t = ⟨(release t.kind y.output y.waiting).output,
      t :: (release t.kind y.output y.waiting).waiting⟩ := by
  unfold feed
  cases hk : t.kind <;> simp [hk, Kind.isOperator, Kind.arity] at ht ⊢

theorem feed_open (ht : t.kind = .openBrace) (y : Yard) :
    y.feed t = ⟨y.output, t :: y.waiting⟩ := by
  simp [feed, ht]

theorem feed_close (ht : t.kind = .closeBrace) (y : Yard) :
    y.feed t = close y.output y.waiting := by
  simp [feed, ht]

theorem feed_whitespace (ht : t.kind = .whitespace) (y : Yard) : y.feed t = y := by
  simp [feed, ht]

/-- What a token can be to a rearrangement. -/
theorem kind_cases (k : Kind) :
    k.isOperand = true ∨ k.isOperator = true ∨ k = .openBrace ∨ k = .closeBrace ∨
      k = .whitespace := by
  cases k <;> decide

/-- Some tokens at the top of the stack, and no open group among them, are released. -/
theorem exists_release (incoming : Kind) (output : Array Token) (waiting : List Token) :
    ∃ moved below, waiting = moved ++ below ∧ (∀ u ∈ moved, u.kind ≠ .openBrace) ∧
      release incoming output waiting = ⟨emit output moved, below⟩ := by
  cases houtput : output.isEmpty with
  | true =>
    refine ⟨[], waiting, rfl, nofun, ?_⟩
    rw [release_of_isEmpty houtput, emit_nil]
  | false =>
    refine ⟨_, _, List.takeWhile_append_dropWhile.symm, fun u hu hopen => ?_,
      release_of_nonempty houtput incoming waiting⟩
    have hyields := List.all_eq_true.mp List.all_takeWhile u hu
    simp [Kind.yieldsTo, hopen] at hyields

/-- All that a token can do: an operand is put out; an operator and the end of a group put out
tokens from the top of the stack, no open group among them; and the stack then loses the open group
that is ended, or gains the operator or the open group that arrives. -/
theorem feed_cases (t : Token) (y : Yard) :
    ∃ moved below, y.waiting = moved ++ below ∧ (∀ u ∈ moved, u.kind ≠ .openBrace) ∧
      ((t.kind.isOperand = true ∧ y.feed t = ⟨y.output.push t, y.waiting⟩) ∨
        (t.kind.isOperator = true ∧ y.feed t = ⟨emit y.output moved, t :: below⟩) ∨
        (t.kind = .openBrace ∧ y.feed t = ⟨y.output, t :: y.waiting⟩) ∨
        (t.kind = .closeBrace ∧ (∀ u ∈ below.head?, u.kind = .openBrace) ∧
          y.feed t = ⟨emit y.output moved, below.tail⟩) ∨
        (t.kind = .whitespace ∧ y.feed t = y)) := by
  rcases kind_cases t.kind with ht | ht | ht | ht | ht
  · exact ⟨[], y.waiting, rfl, nofun, .inl ⟨ht, feed_operand ht y⟩⟩
  · obtain ⟨moved, below, hsplit, hmoved, hrelease⟩ := exists_release t.kind y.output y.waiting
    refine ⟨moved, below, hsplit, hmoved, .inr (.inl ⟨ht, ?_⟩)⟩
    rw [feed_operator ht, hrelease]
  · exact ⟨[], y.waiting, rfl, nofun, .inr (.inr (.inl ⟨ht, feed_open ht y⟩))⟩
  · refine ⟨_, _, List.takeWhile_append_dropWhile.symm, fun u hu => ?_,
      .inr (.inr (.inr (.inl ⟨ht, fun u hu => ?_,
        (feed_close ht y).trans (close_eq y.output y.waiting)⟩)))⟩
    · simpa using List.all_eq_true.mp List.all_takeWhile u hu
    · have hstop :=
        List.head?_dropWhile_not (fun u : Token => decide (u.kind ≠ .openBrace)) y.waiting
      rw [Option.mem_def.mp hu] at hstop
      simpa using hstop
  · exact ⟨[], y.waiting, rfl, nofun, .inr (.inr (.inr (.inr ⟨ht, feed_whitespace ht y⟩)))⟩

/-- Whitespace is passed over. -/
theorem foldl_feed_significant (ts : List Token) (y : Yard) :
    (Token.significant ts).foldl feed y = ts.foldl feed y := by
  induction ts generalizing y with
  | nil => rfl
  | cons t ts ih =>
    by_cases ht : t.kind = .whitespace
    · rw [List.foldl_cons, feed_whitespace ht, ← ih]
      simp [Token.significant, Token.isWhitespace, ht]
    · rw [List.foldl_cons, ← ih]
      simp [Token.significant, Token.isWhitespace, ht]

end Feeding

end Calculator.Yard

namespace Calculator.Postfix

theorem tokens_arrange (ts : List Token) :
    (arrange ts).tokens = (ts.foldl Yard.feed .empty).drain := by
  rw [arrange, Yard.foldl_feed_significant]

end Calculator.Postfix
