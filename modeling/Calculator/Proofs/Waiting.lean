import Calculator.Proofs.Conservation

/-!
The order in which operators and open groups wait while an accepted sequence is rearranged. Nothing
waits directly above an operator that should have left before it came. So between two open groups
the operators bind more and more tightly towards the top; of two that bind equally both are powers
or both are negations. And as long as nothing has been put out, an operand has to come next, so that
no binary operator arrives. A rearrangement of accepted sequences need not ask for that.
-/
namespace Calculator

namespace Kind

/-- `upper` may wait above `lower` with no open group in between. -/
def StandsOver (upper lower : Kind) : Prop :=
  lower.strength ≤ upper.strength ∧ (lower.strength = upper.strength →
    (lower = .exp ∧ upper = .exp) ∨ (lower = .neg ∧ upper = .neg))

instance (upper lower : Kind) : Decidable (upper.StandsOver lower) :=
  inferInstanceAs (Decidable (_ ∧ _))

variable {upper middle lower : Kind}

theorem StandsOver.trans (h : upper.StandsOver middle) (h' : middle.StandsOver lower) :
    upper.StandsOver lower := by
  obtain ⟨hle, heq⟩ := h
  obtain ⟨hle', heq'⟩ := h'
  refine ⟨by omega, fun hsame => ?_⟩
  rcases heq (by omega) with ⟨rfl, rfl⟩ | ⟨rfl, rfl⟩
  · exact heq' (by omega)
  · exact heq' (by omega)

/-- An operator that keeps waiting when another arrives binds less tightly, unless both are powers
or both are negations. -/
theorem standsOver_of_not_yieldsTo (hupper : upper.isOperator = true)
    (hlower : lower.isOperator = true) (h : lower.yieldsTo upper = false) :
    upper.StandsOver lower := by
  revert hupper hlower h
  cases upper <;> cases lower <;> decide

theorem neg_or_open_of_not_yieldsTo (hupper : upper.isOperator = true ∨ upper = .openBrace)
    (h : neg.yieldsTo upper = false) : upper = .neg ∨ upper = .openBrace := by
  revert hupper h
  cases upper <;> decide

theorem not_yieldsTo_openBrace (top : Kind) : top.yieldsTo .openBrace = false := by
  cases top <;> rfl

end Kind

namespace Yard

open Token Grammar

def Stacked (waiting : List Token) : Prop :=
  waiting.IsChain fun upper lower => lower.kind.yieldsTo upper.kind = false

section Stacks

variable {y : Yard} {t : Token} {waiting : List Token}

theorem Stacked.cons (h : Stacked waiting)
    (htop : ∀ top ∈ waiting.head?, top.kind.yieldsTo t.kind = false) : Stacked (t :: waiting) :=
  List.isChain_cons.mpr ⟨htop, h⟩

/-- The entry on which a release stops does not yield. -/
theorem not_yieldsTo_of_head (incoming : Kind) (waiting : List Token) :
    ∀ top ∈ (waiting.dropWhile fun u => u.kind.yieldsTo incoming).head?,
      top.kind.yieldsTo incoming = false := by
  intro top htop
  have hstop := List.head?_dropWhile_not (fun u : Token => u.kind.yieldsTo incoming) waiting
  rwa [Option.mem_def.mp htop] at hstop

/-- One token more. Only a binary operator that arrives before anything has been put out could come
to wait above an entry that yields to it. -/
theorem Stacked.feed (h : Stacked y.waiting)
    (hstarted : t.kind.arity = some .binary → y.output.isEmpty = false) :
    Stacked (y.feed t).waiting := by
  rcases kind_cases t.kind with ht | ht | ht | ht | ht
  · rw [feed_operand ht]
    exact h
  · obtain ⟨moved, below, hsplit, -, hrelease⟩ := exists_release t.kind y.output y.waiting
    have hbelow : Stacked below := List.IsChain.suffix h ⟨moved, hsplit.symm⟩
    rw [feed_operator ht, hrelease]
    refine hbelow.cons fun top htop => ?_
    by_cases hneg : t.kind = .neg
    · rw [hneg]
      exact Kind.yieldsTo_neg top.kind
    · rw [release_of_nonempty (hstarted (Kind.binary_of_isOperator ht hneg)),
        Yard.mk.injEq] at hrelease
      rw [← hrelease.2] at htop
      exact not_yieldsTo_of_head t.kind y.waiting top htop
  · rw [feed_open ht]
    refine h.cons fun top _ => ?_
    rw [ht]
    exact Kind.not_yieldsTo_openBrace top.kind
  · rw [feed_close ht, close_eq]
    exact List.IsChain.suffix h ((List.tail_suffix _).trans (List.dropWhile_suffix _))
  · rw [feed_whitespace ht]
    exact h

/-- What has been put out stays out. -/
theorem isEmpty_output_feed (h : y.output.isEmpty = false) (t : Token) :
    (y.feed t).output.isEmpty = false := by
  obtain ⟨moved, below, -, -, hcases⟩ := feed_cases t y
  rcases hcases with ⟨-, hfeed⟩ | ⟨-, hfeed⟩ | ⟨-, hfeed⟩ | ⟨-, -, hfeed⟩ | ⟨-, hfeed⟩
  · rw [hfeed]
    simp
  · rw [hfeed]
    exact isEmpty_emit h moved
  · rw [hfeed]
    exact h
  · rw [hfeed]
    exact isEmpty_emit h moved
  · rw [hfeed]
    exact h

/-- The open groups that wait are counted as the check counts them. -/
theorem length_beginnings_feed (t : Token) (y : Yard) :
    (beginnings (y.feed t).waiting).length = t.kind.depthAfter (beginnings y.waiting).length := by
  rw [beginnings_feed]
  by_cases hopen : t.kind = .openBrace
  · rw [if_pos hopen, hopen, List.length_cons]
    rfl
  by_cases hclose : t.kind = .closeBrace
  · rw [if_neg hopen, if_pos hclose, hclose, List.length_tail]
    rfl
  · rw [if_neg hopen, if_neg hclose]
    unfold Kind.depthAfter
    split
    · contradiction
    · contradiction
    · rfl

end Stacks

structure Tracks (s : State) (y : Yard) : Prop where
  stacked : Stacked y.waiting
  awaits : y.output.isEmpty = true → ∃ depth, s.Awaits depth
  depth_eq : s.depth = (beginnings y.waiting).length

theorem tracks_initial : Tracks .initial empty where
  stacked := .nil
  awaits _ := ⟨0, State.awaits_initial⟩
  depth_eq := rfl

section Tracking

variable {s s' : State} {y : Yard} {t : Token} {ts : List Token}

/-- In front of every binary operator an operand has been put out. -/
theorem Tracks.started (h : Tracks s y) (hstep : s.step t = .ok s')
    (ht : t.kind.arity = some .binary) : y.output.isEmpty = false := by
  cases houtput : y.output.isEmpty with
  | false => rfl
  | true =>
    obtain ⟨depth, hs⟩ := h.awaits houtput
    rcases hs.step_cases hstep with ⟨hoperand, -⟩ | ⟨hneg, -⟩ | ⟨hopen, -⟩
    · rw [Kind.isOperand_of_binary ht] at hoperand
      cases hoperand
    · rw [hneg] at ht
      cases ht
    · rw [hopen] at ht
      cases ht

theorem Tracks.step (h : Tracks s y) (hstep : s.step t = .ok s') : Tracks s' (y.feed t) := by
  refine ⟨h.stacked.feed (h.started hstep), fun houtput => ?_, ?_⟩
  · have hnone : y.output.isEmpty = true := by
      by_contra hsome
      rw [isEmpty_output_feed (Bool.not_eq_true _ ▸ hsome) t] at houtput
      cases houtput
    obtain ⟨depth, hs⟩ := h.awaits hnone
    rcases hs.step_cases hstep with ⟨hoperand, -⟩ | ⟨-, hnext⟩ | ⟨-, hnext⟩
    · simp [feed_operand hoperand] at houtput
    · exact ⟨depth, hnext⟩
    · exact ⟨depth + 1, hnext⟩
  · obtain ⟨-, rfl⟩ := State.step_eq_ok_iff.mp hstep
    rw [length_beginnings_feed, ← h.depth_eq]
    rfl

/-- By induction on the tokens that the check passes. -/
theorem Tracks.advance (h : Tracks s y) (hrun : Grammar.advance s ts = .ok s') :
    Tracks s' (ts.foldl Yard.feed y) := by
  induction ts generalizing s y with
  | nil =>
    cases hrun
    exact h
  | cons t rest ih =>
    obtain ⟨next, hstep, hrest⟩ := advance_cons_eq_ok_iff.mp hrun
    exact ih (h.step hstep) hrest

end Tracking

section Freely

def releaseFreely (incoming : Kind) (output : Array Token) : List Token → Yard
  | [] => ⟨output, []⟩
  | top :: below =>
    if top.kind.yieldsTo incoming then releaseFreely incoming (output.push top) below
    else ⟨output, top :: below⟩

def feedFreely (y : Yard) (t : Token) : Yard :=
  if t.kind.isOperator then
    let released := releaseFreely t.kind y.output y.waiting
    { released with waiting := t :: released.waiting }
  else y.feed t

variable {s s' : State} {y : Yard} {t : Token} {ts : List Token}

/-- The question makes a difference only to a binary operator that arrives first. -/
theorem releaseFreely_eq {incoming : Kind} {output : Array Token}
    (h : incoming = .neg ∨ output.isEmpty = false) (waiting : List Token) :
    releaseFreely incoming output waiting = release incoming output waiting := by
  induction waiting generalizing output with
  | nil => rfl
  | cons top below ih =>
    rw [releaseFreely, release]
    rcases h with rfl | h
    · simp [Kind.yieldsTo_neg]
    · have hpushed : (output.push top).isEmpty = false := by simp
      rw [h, ih (.inr hpushed)]
      rfl

theorem feedFreely_eq (h : t.kind.arity = some .binary → y.output.isEmpty = false) :
    y.feedFreely t = y.feed t := by
  unfold feedFreely
  by_cases ht : t.kind.isOperator = true
  · have hasks : t.kind = .neg ∨ y.output.isEmpty = false := by
      by_cases hneg : t.kind = .neg
      · exact .inl hneg
      · exact .inr (h (Kind.binary_of_isOperator ht hneg))
    rw [if_pos ht, feed_operator ht, releaseFreely_eq hasks]
  · rw [if_neg ht]

theorem Tracks.foldl_feedFreely (h : Tracks s y) (hrun : Grammar.advance s ts = .ok s') :
    ts.foldl feedFreely y = ts.foldl Yard.feed y := by
  induction ts generalizing s y with
  | nil => rfl
  | cons t rest ih =>
    obtain ⟨next, hstep, hrest⟩ := advance_cons_eq_ok_iff.mp hrun
    rw [List.foldl_cons, List.foldl_cons, feedFreely_eq (h.started hstep)]
    exact ih (h.step hstep) hrest

end Freely

/-- How things stand when a rearrangement has taken in `front` and comes to `rest`. -/
structure InOrder (front rest : List Token) (y : Yard) : Prop where
  entries : ∀ t ∈ y.waiting, t.kind.isOperator = true ∨ t.kind = .openBrace
  stacked : y.waiting.IsChain fun upper lower => lower.kind.yieldsTo upper.kind = false
  binding : ∀ run, run <:+: y.waiting → (∀ t ∈ run, t.kind ≠ .openBrace) →
    run.Pairwise fun upper lower => upper.kind.StandsOver lower.kind
  negations : y.waiting.IsChain fun upper lower =>
    lower.kind = .neg → upper.kind = .neg ∨ upper.kind = .openBrace
  groups : (y.waiting.filter fun t => t.kind = .openBrace) = (unclosed front).reverse
  depth : ∀ s, advance .initial front = .ok s → s.depth = (unclosed front).length
  first : ∀ t ∈ rest.head?, t.kind.isOperator = true → y.output.isEmpty = true → t.kind = .neg

section Orders

variable {front rest : List Token} {waiting : List Token}

/-- Between two open groups, the order of neighbours is the order of all. -/
theorem Stacked.binding (h : Stacked waiting)
    (hkinds : ∀ t ∈ waiting, t.kind.isOperator = true) :
    waiting.Pairwise fun upper lower => upper.kind.StandsOver lower.kind := by
  have htrans : Trans (fun t u : Token => t.kind.StandsOver u.kind)
      (fun t u : Token => t.kind.StandsOver u.kind) fun t u : Token => t.kind.StandsOver u.kind :=
    ⟨Kind.StandsOver.trans⟩
  refine List.IsChain.pairwise (List.IsChain.imp_of_mem_imp ?_ h)
  intro upper lower hupper hlower hwaits
  exact Kind.standsOver_of_not_yieldsTo (hkinds upper hupper) (hkinds lower hlower) hwaits

/-- So things stand in front of every token of an accepted sequence, and at its end. -/
theorem inOrder_of_advance {s : State} (hrun : advance .initial (front ++ rest) = .ok s) :
    InOrder front rest (front.foldl Yard.feed .empty) := by
  obtain ⟨mid, hfront, hrest⟩ := advance_append_eq_ok_iff.mp hrun
  have htracks := tracks_initial.advance hfront
  have hkinds := (keeps_empty.foldl_feed front).waiting_kind
  have hgroups : beginnings (front.foldl Yard.feed .empty).waiting = (unclosed front).reverse := by
    rw [beginnings_foldl_feed]
    simp [empty, beginnings]
  refine ⟨hkinds, htracks.stacked, fun run hpart hnone => ?_, ?_, hgroups, fun s' hs' => ?_,
    fun t ht hoperator hempty => ?_⟩
  · have hrun : Stacked run := List.IsChain.infix htracks.stacked hpart
    refine hrun.binding fun t ht => ?_
    exact (hkinds t (hpart.subset ht)).resolve_right (hnone t ht)
  · refine List.IsChain.imp_of_mem_imp ?_ htracks.stacked
    intro upper lower hupper _ hwaits hneg
    rw [hneg] at hwaits
    exact Kind.neg_or_open_of_not_yieldsTo (hkinds upper hupper) hwaits
  · obtain rfl : mid = s' := Except.ok.inj (hfront.symm.trans hs')
    rw [htracks.depth_eq, hgroups, List.length_reverse]
  · obtain ⟨later, rfl⟩ := List.head?_eq_some_iff.mp ht
    obtain ⟨next, hstep, -⟩ := advance_cons_eq_ok_iff.mp hrest
    by_contra hneg
    have hstarted := htracks.started hstep (Kind.binary_of_isOperator hoperator hneg)
    rw [hempty] at hstarted
    cases hstarted

end Orders

end Yard

namespace Postfix

open Token Yard

/-- As `arrange`, but nothing asks whether anything has been put out. -/
def arrangeFreely (tokens : List Token) : Postfix :=
  ⟨((significant tokens).foldl Yard.feedFreely .empty).drain⟩

/-- While an accepted sequence is rearranged, the operators and the open groups wait in order at
every point, and so it is rearranged in the same way without asking whether anything has been put
out. -/
theorem arrange_waits_inOrder (ts : List Token) (h : Grammar.check ts = .ok ()) :
    (∀ front rest, significant ts = front ++ rest →
      InOrder front rest (front.foldl Yard.feed .empty)) ∧
      arrangeFreely ts = arrange ts := by
  obtain ⟨s, hrun, -⟩ := Grammar.check_eq_ok_iff_finish.mp h
  constructor
  · intro front rest hsplit
    rw [hsplit] at hrun
    exact inOrder_of_advance hrun
  · rw [arrangeFreely, arrange, tracks_initial.foldl_feedFreely hrun]

/-- The tokens of `2*-(3^4^-5)`. -/
def powersInGroup : List Token :=
  [⟨.number, "2", ⟨1, 1⟩⟩, ⟨.mul, "*", ⟨2, 1⟩⟩, ⟨.neg, "-", ⟨3, 1⟩⟩, ⟨.openBrace, "(", ⟨4, 1⟩⟩,
    ⟨.number, "3", ⟨5, 1⟩⟩, ⟨.exp, "^", ⟨6, 1⟩⟩, ⟨.number, "4", ⟨7, 1⟩⟩, ⟨.exp, "^", ⟨8, 1⟩⟩,
    ⟨.neg, "-", ⟨9, 1⟩⟩, ⟨.number, "5", ⟨10, 1⟩⟩, ⟨.closeBrace, ")", ⟨11, 1⟩⟩]

/-- In front of the last operand every operator of the sequence waits. -/
theorem arrange_waits_powersInGroup :
    Grammar.check powersInGroup = .ok () ∧
      ((powersInGroup.take 9).foldl Yard.feed .empty).waiting.map Token.kind =
        [.neg, .exp, .exp, .openBrace, .neg, .mul] ∧
      InOrder (powersInGroup.take 9) (powersInGroup.drop 9)
        ((powersInGroup.take 9).foldl Yard.feed .empty) ∧
      arrangeFreely powersInGroup = arrange powersInGroup :=
  ⟨rfl, rfl, (arrange_waits_inOrder powersInGroup rfl).1 _ _ rfl,
    (arrange_waits_inOrder powersInGroup rfl).2⟩

/-- Where the check refuses, the question decides: nothing has been put out when the second of two
binary operators arrives. -/
example : arrangeFreely [⟨.mul, "*", ⟨1, 1⟩⟩, ⟨.add, "+", ⟨2, 1⟩⟩] ≠
    arrange [⟨.mul, "*", ⟨1, 1⟩⟩, ⟨.add, "+", ⟨2, 1⟩⟩] := by decide

end Postfix

end Calculator
