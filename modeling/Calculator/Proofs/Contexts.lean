import Calculator.Proofs.Rearrangement
import Calculator.Proofs.Yards

/-!
A group in the middle of any tokens. Once something has been put out, a rearrangement is led by what
waits and not by what has been put out. A group around an accepted sequence puts out what the
sequence is rearranged into and leaves everything that waits below it as it was, just as a literal
puts out itself. So the tokens around it are treated in the same way, whether they are well formed
or not.
-/
namespace Calculator

namespace Yard

/-- Wherever they stand, these tokens put out `part` and leave what waits as it is. -/
structure PutsOut (middle part : List Token) : Prop where
  ne_nil : part ≠ []
  foldl_feed : ∀ y : Yard, middle.foldl feed y = ⟨emit y.output part, y.waiting⟩

/-- Once something has been put out, what waits tells what a token adds and what waits then. -/
theorem exists_feed (t : Token) (waiting : List Token) :
    ∃ added after, ∀ output : Array Token, output.isEmpty = false →
      feed ⟨output, waiting⟩ t = ⟨emit output added, after⟩ := by
  rcases kind_cases t.kind with ht | ht | ht | ht | ht
  · refine ⟨[t], waiting, fun output _ => ?_⟩
    rw [feed_operand ht, emit_cons, emit_nil]
  · refine ⟨waiting.takeWhile fun u => u.kind.yieldsTo t.kind,
      t :: waiting.dropWhile fun u => u.kind.yieldsTo t.kind, fun output houtput => ?_⟩
    rw [feed_operator ht, release_of_nonempty houtput]
  · refine ⟨[], t :: waiting, fun output _ => ?_⟩
    rw [feed_open ht, emit_nil]
  · exact ⟨_, _, fun output _ => (feed_close ht _).trans (close_eq output waiting)⟩
  · refine ⟨[], waiting, fun output _ => ?_⟩
    rw [feed_whitespace ht, emit_nil]

/-- By induction on the tokens: what has been put out stays in front. -/
theorem exists_foldl_feed (ts waiting : List Token) :
    ∃ added after, ∀ output : Array Token, output.isEmpty = false →
      ts.foldl feed ⟨output, waiting⟩ = ⟨emit output added, after⟩ := by
  induction ts generalizing waiting with
  | nil => exact ⟨[], waiting, fun output _ => by rw [List.foldl_nil, emit_nil]⟩
  | cons t ts ih =>
    obtain ⟨first, mid, hfirst⟩ := exists_feed t waiting
    obtain ⟨later, after, hlater⟩ := ih mid
    refine ⟨first ++ later, after, fun output houtput => ?_⟩
    rw [List.foldl_cons, hfirst output houtput, hlater _ (isEmpty_emit houtput first), emit_append]

/-- Tokens that act alike in every place are surrounded by the same tokens. -/
theorem exists_around (front rest : List Token) :
    ∃ before after, ∀ middle part, PutsOut middle part →
      (Postfix.arrange (front ++ middle ++ rest)).tokens = before ++ part ++ after := by
  have hfront : ∃ y : Yard, front.foldl feed empty = y := ⟨_, rfl⟩
  obtain ⟨y, hy⟩ := hfront
  obtain ⟨added, waiting, hrest⟩ := exists_foldl_feed rest y.waiting
  refine ⟨y.output.toList, added ++ waiting, fun middle part hpart => ?_⟩
  have houtput : (emit y.output part).isEmpty = false := by
    simpa [emit, Array.isEmpty_iff] using fun _ => hpart.ne_nil
  rw [Postfix.tokens_arrange, List.foldl_append, List.foldl_append, hy, hpart.foldl_feed,
    hrest _ houtput]
  simp [drain]

theorem PutsOut.tokens_arrange {middle part : List Token} (h : PutsOut middle part) :
    (Postfix.arrange middle).tokens = part := by
  rw [Postfix.tokens_arrange, h.foldl_feed]
  simp [drain, empty]

theorem putsOut_literal {t : Token} (ht : t.kind.isOperand = true) : PutsOut [t] [t] where
  ne_nil := List.cons_ne_nil t []
  foldl_feed y := by
    rw [List.foldl_cons, List.foldl_nil, feed_operand ht, emit_cons, emit_nil]

end Yard

section Groups

variable {e : List Token} {opening closing : Token}

/-- No operator binds so tightly as to wait above a group that is closed. -/
theorem Binds.eq_nil {waiting : List Token} (h : Binds Phrase.Stratum.atom.level waiting) :
    waiting = [] := by
  refine List.eq_nil_iff_forall_not_mem.mpr fun t ht => ?_
  obtain ⟨hoperator, hlevel⟩ := h t ht
  revert hoperator hlevel
  cases t.kind <;> decide

theorem significant_group (hopening : opening.kind = .openBrace)
    (hclosing : closing.kind = .closeBrace) (e : List Token) :
    Token.significant ([opening] ++ e ++ [closing]) =
      opening :: Token.significant e ++ [closing] := by
  simp [Token.significant, Token.isWhitespace, hopening, hclosing]

/-- A group around an accepted sequence is accepted. -/
theorem check_group (he : Grammar.check e = .ok ()) (hopening : opening.kind = .openBrace)
    (hclosing : closing.kind = .closeBrace) :
    Grammar.check ([opening] ++ e ++ [closing]) = .ok () := by
  have hderives := (Grammar.check_iff_derives e).mp he
  rw [Grammar.check_iff_derives, significant_group hopening hclosing]
  simpa [hopening, hclosing] using Grammar.Derives.operand (.group hderives)

/-- A group puts out what its inner tokens are rearranged into. -/
theorem putsOut_group (he : Grammar.check e = .ok ()) (hopening : opening.kind = .openBrace)
    (hclosing : closing.kind = .closeBrace) :
    Yard.PutsOut ([opening] ++ e ++ [closing]) (Postfix.arrange e).tokens := by
  obtain ⟨phrase, hphrase, hyield⟩ := (Phrase.check_iff_exists_phrase e).mp he
  have hgroup : Phrase.At .atom (.group opening phrase closing) := .group hopening hphrase hclosing
  have htokens : (Postfix.arrange e).tokens = phrase.tree.postorder := hphrase.arrange hyield
  refine ⟨htokens ▸ phrase.tree.postorder_ne_nil, fun y => ?_⟩
  obtain ⟨output, pending, hrun, hbuild, -, hbinds⟩ :=
    hgroup.runs listing y.output y.waiting (holds_four.mono (by decide))
  obtain rfl := hbinds.eq_nil
  have hsame : (Phrase.group opening phrase closing).yield =
      Token.significant ([opening] ++ e ++ [closing]) := by
    rw [significant_group hopening hclosing, ← hyield]
    rfl
  have houtput : output = Yard.emit y.output (Postfix.arrange e).tokens := by
    refine Array.toList_inj.mp ?_
    rw [Yard.toList_emit, htokens]
    exact (congrArg Array.toList hbuild).trans (Phrase.toList_build_listing _ y.output)
  rw [hsame, foldl_feed_listing, Yard.foldl_feed_significant, List.nil_append] at hrun
  obtain ⟨hout, hwaiting⟩ := Bench.mk.inj hrun
  rw [← houtput, ← hout, ← hwaiting]

end Groups

/-- A group is one operand. Whatever stands around it, the tokens that come out around the
rearranged inside of a group are those that come out around a literal in its place. So a second
group around a group, or one around a whole accepted sequence, changes nothing. -/
theorem arrange_group (front rest : List Token) :
    (∃ before after : List Token,
      (∀ x : Token, x.kind.isOperand = true →
        (Postfix.arrange (front ++ [x] ++ rest)).tokens = before ++ [x] ++ after) ∧
      ∀ (e : List Token) (o c : Token), Grammar.check e = .ok () → o.kind = .openBrace →
        c.kind = .closeBrace →
          (Postfix.arrange (front ++ ([o] ++ e ++ [c]) ++ rest)).tokens =
            before ++ (Postfix.arrange e).tokens ++ after) ∧
    (∀ (e : List Token) (o c o' c' : Token), Grammar.check e = .ok () → o.kind = .openBrace →
      c.kind = .closeBrace → o'.kind = .openBrace → c'.kind = .closeBrace →
        Postfix.arrange (front ++ ([o'] ++ ([o] ++ e ++ [c]) ++ [c']) ++ rest) =
          Postfix.arrange (front ++ ([o] ++ e ++ [c]) ++ rest)) ∧
    ∀ (e : List Token) (o c : Token), Grammar.check e = .ok () → o.kind = .openBrace →
      c.kind = .closeBrace → Postfix.arrange ([o] ++ e ++ [c]) = Postfix.arrange e := by
  obtain ⟨before, after, haround⟩ := Yard.exists_around front rest
  refine ⟨⟨before, after, fun x hx => haround _ _ (Yard.putsOut_literal hx), ?_⟩, ?_, ?_⟩
  · intro e o c he ho hc
    exact haround _ _ (putsOut_group he ho hc)
  · intro e o c o' c' he ho hc ho' hc'
    have hinner := putsOut_group he ho hc
    have houter := putsOut_group (check_group he ho hc) ho' hc'
    rw [hinner.tokens_arrange] at houter
    rw [Postfix.mk.injEq, haround _ _ houter, haround _ _ hinner]
  · intro e o c he ho hc
    rw [Postfix.mk.injEq]
    exact (putsOut_group he ho hc).tokens_arrange

def shortSum : List Token :=
  [⟨.number, "1", ⟨5, 1⟩⟩, ⟨.add, "+", ⟨7, 1⟩⟩, ⟨.number, "3", ⟨9, 1⟩⟩]

/-- The group stands behind `) 2 *` and in front of `^ (`; with it, and with `5` in its place, the
same tokens come out around it. -/
theorem arrange_sumAmongFragments :
    let front : List Token :=
      [⟨.closeBrace, ")", ⟨1, 1⟩⟩, ⟨.number, "2", ⟨2, 1⟩⟩, ⟨.mul, "*", ⟨3, 1⟩⟩]
    let rest : List Token := [⟨.exp, "^", ⟨11, 1⟩⟩, ⟨.openBrace, "(", ⟨12, 1⟩⟩]
    let five : Token := ⟨.number, "5", ⟨4, 1⟩⟩
    let opening : Token := ⟨.openBrace, "(", ⟨4, 1⟩⟩
    let closing : Token := ⟨.closeBrace, ")", ⟨10, 1⟩⟩
    let group := [opening] ++ shortSum ++ [closing]
    (∃ before after,
      (Postfix.arrange (front ++ [five] ++ rest)).tokens = before ++ [five] ++ after ∧
      (Postfix.arrange (front ++ group ++ rest)).tokens =
        before ++ (Postfix.arrange shortSum).tokens ++ after) ∧
    (Postfix.arrange (front ++ [five] ++ rest)).render = "2 5 ( ^ *" ∧
    (Postfix.arrange (front ++ group ++ rest)).render = "2 1 3 + ( ^ *" ∧
    Postfix.arrange (front ++ ([opening] ++ group ++ [closing]) ++ rest) =
      Postfix.arrange (front ++ group ++ rest) ∧
    Postfix.arrange group = Postfix.arrange shortSum := by
  intro front rest five opening closing group
  have haccepted : Grammar.check shortSum = .ok () := rfl
  obtain ⟨⟨before, after, hliteral, hgroup⟩, htwice, hwhole⟩ := arrange_group front rest
  refine ⟨⟨before, after, hliteral five rfl, hgroup shortSum opening closing haccepted rfl rfl⟩,
    rfl, rfl, ?_, hwhole shortSum opening closing haccepted rfl rfl⟩
  exact htwice shortSum opening closing opening closing haccepted rfl rfl rfl rfl

end Calculator
