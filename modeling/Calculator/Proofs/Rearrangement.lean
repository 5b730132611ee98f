import Calculator.Proofs.Assembly
import Mathlib.Logic.ExistsUnique

/-!
What a rearrangement makes of the tokens of a phrase. Taken in as a listing, what comes out is the
listing of the tree in post-order. Taken in as phrases, it is the phrase itself, so that no two
phrases are written with the same tokens.
-/
namespace Calculator

def listing : Assembly (Array Token) where
  literal t out := out.push t
  operator t out := out.push t
  group _ _ out := out
  isEmpty out := out.isEmpty
  isEmpty_literal t out := by simp
  isEmpty_operator t out _ := by simp
  isEmpty_group _ _ _ h := h

namespace Phrase

def combine (op : Token) : List Phrase → List Phrase
  | [] => []
  | [e] => if op.kind = .neg then [.negation op e] else [e]
  | e :: l :: rest =>
    if op.kind = .neg then .negation op e :: l :: rest else .operation op l e :: rest

theorem combine_negation {op : Token} (hop : op.kind = .neg) (e : Phrase) (rest : List Phrase) :
    combine op (e :: rest) = .negation op e :: rest := by
  cases rest <;> simp [combine, hop]

theorem combine_operation {op : Token} (hop : op.kind ≠ .neg) (l r : Phrase)
    (rest : List Phrase) : combine op (r :: l :: rest) = .operation op l r :: rest := by
  simp [combine, hop]

theorem combine_ne_nil (op : Token) (e : Phrase) (rest : List Phrase) :
    combine op (e :: rest) ≠ [] := by
  cases rest with
  | nil => by_cases hop : op.kind = .neg <;> simp [combine, hop]
  | cons l rest => by_cases hop : op.kind = .neg <;> simp [combine, hop]

def enclose (opening closing : Token) : List Phrase → List Phrase
  | [] => []
  | e :: rest => .group opening e closing :: rest

def assembly : Assembly (List Phrase) where
  literal t done := .literal t :: done
  operator := combine
  group := enclose
  isEmpty done := done.isEmpty
  isEmpty_literal _ _ := rfl
  isEmpty_operator t done h := by
    cases done with
    | nil => cases h
    | cons e rest => simp [combine_ne_nil]
  isEmpty_group o c done h := by
    cases done with
    | nil => cases h
    | cons e rest => rfl

theorem build_assembly {e : Phrase} (h : e.tree.WellKinded) (done : List Phrase) :
    assembly.build e done = e :: done := by
  induction e generalizing done with
  | literal t => rfl
  | group opening e closing ih =>
    rw [Assembly.build, ih h]
    rfl
  | negation op e ih =>
    rw [Assembly.build, ih h.2]
    exact combine_negation h.1 e done
  | operation op l r ihl ihr =>
    have hne : op.kind ≠ .neg := by
      intro hop
      have hk := h.1
      rw [hop] at hk
      cases hk
    rw [Assembly.build, ihl h.2.1, ihr h.2.2]
    exact combine_operation hne l r done

/-- No two phrases are written with the same tokens. -/
theorem At.yield_injective {s s' : Stratum} {e e' : Phrase} (h : At s e) (h' : At s' e')
    (hyield : e.yield = e'.yield) : e = e' := by
  have hbuild := h.unload_run assembly []
  have hbuild' := h'.unload_run assembly []
  rw [build_assembly h.wellKinded] at hbuild
  rw [build_assembly h'.wellKinded, ← hyield, hbuild] at hbuild'
  exact List.head_eq_of_cons_eq hbuild'

theorem toList_build_listing (e : Phrase) (out : Array Token) :
    (listing.build e out).toList = out.toList ++ e.tree.postorder := by
  induction e generalizing out with
  | literal t => simp [Assembly.build, listing, tree, Tree.postorder]
  | group opening e closing ih => exact ih out
  | negation op e ih =>
    change (Array.push (listing.build e out) op).toList = _
    simp [ih, tree, Tree.postorder]
  | operation op l r ihl ihr =>
    change (Array.push (listing.build r (listing.build l out)) op).toList = _
    simp [ihl, ihr, tree, Tree.postorder]

end Phrase

section Yard

variable {out : Array Token} {waiting : List Token}

theorem release_listing (incoming : Kind) (out : Array Token) (waiting : List Token) :
    listing.release incoming out waiting =
      ⟨(Yard.release incoming out waiting).output, (Yard.release incoming out waiting).waiting⟩ := by
  induction waiting generalizing out with
  | nil => rfl
  | cons top below ih =>
    rw [Assembly.release, Yard.release]
    change (if !out.isEmpty && top.kind.yieldsTo incoming then
      listing.release incoming (out.push top) below else _) = _
    split
    · exact ih (out.push top)
    · rfl

theorem close_listing (closing : Token) (out : Array Token) (waiting : List Token) :
    listing.close closing out waiting =
      ⟨(Yard.close out waiting).output, (Yard.close out waiting).waiting⟩ := by
  induction waiting generalizing out with
  | nil => rfl
  | cons top below ih =>
    rw [Assembly.close, Yard.close]
    split
    · rfl
    · exact ih (out.push top)

/-- The rearrangement of tokens is the assembly that lists them. -/
theorem feed_listing (y : Yard) (t : Token) :
    listing.feed ⟨y.output, y.waiting⟩ t = ⟨(y.feed t).output, (y.feed t).waiting⟩ := by
  unfold Assembly.feed Yard.feed
  cases t.kind <;> simp only [release_listing, close_listing] <;> rfl

theorem foldl_feed_listing (ts : List Token) (y : Yard) :
    ts.foldl listing.feed ⟨y.output, y.waiting⟩ =
      ⟨(ts.foldl Yard.feed y).output, (ts.foldl Yard.feed y).waiting⟩ := by
  induction ts generalizing y with
  | nil => rfl
  | cons t rest ih =>
    rw [List.foldl_cons, List.foldl_cons, feed_listing]
    exact ih (y.feed t)

theorem toList_unload_listing (out : Array Token) (waiting : List Token) :
    (listing.unload out waiting).toList = out.toList ++ waiting := by
  induction waiting generalizing out with
  | nil => simp [Assembly.unload]
  | cons top below ih =>
    have hrest := ih (out.push top)
    rw [Array.toList_push, List.append_assoc] at hrest
    exact hrest

end Yard

theorem Phrase.At.arrange {e : Phrase} {s : Phrase.Stratum} (h : Phrase.At s e) {ts : List Token}
    (hts : e.yield = Token.significant ts) : (Postfix.arrange ts).tokens = e.tree.postorder := by
  have hrun := congrArg Array.toList (h.unload_run listing #[])
  have hyard := foldl_feed_listing e.yield Yard.empty
  change e.yield.foldl listing.feed ⟨#[], []⟩ = _ at hyard
  rw [Phrase.toList_build_listing, toList_unload_listing, hyard, hts] at hrun
  exact hrun

/-- A sequence that the check accepts is written by exactly one phrase, and is rearranged into the
tokens of its tree in post-order. -/
theorem arrange_accepted (ts : List Token) (h : Grammar.check ts = .ok ()) :
    (∃! e : Phrase, Phrase.At .sum e ∧ e.yield = Token.significant ts) ∧
      ∀ e : Phrase, Phrase.At .sum e → e.yield = Token.significant ts →
        (Postfix.arrange ts).tokens = e.tree.postorder := by
  obtain ⟨e, he, hyield⟩ := (Phrase.check_iff_exists_phrase ts).mp h
  refine ⟨⟨e, ⟨he, hyield⟩, ?_⟩, ?_⟩
  · intro e' he'
    exact he'.1.yield_injective he (he'.2.trans hyield.symm)
  · intro e' he' hyield'
    exact he'.arrange hyield'

/-- The tokens of `2 ^ -3 ^ 2 - -(1)`, with one stretch of whitespace. -/
def powersAndNegations : List Token :=
  [⟨.number, "2", ⟨1, 1⟩⟩, ⟨.exp, "^", ⟨2, 1⟩⟩, ⟨.neg, "-", ⟨3, 1⟩⟩, ⟨.number, "3", ⟨4, 1⟩⟩,
    ⟨.exp, "^", ⟨5, 1⟩⟩, ⟨.number, "2", ⟨6, 1⟩⟩, ⟨.sub, "-", ⟨7, 1⟩⟩,
    ⟨.whitespace, " ", ⟨8, 1⟩⟩, ⟨.neg, "-", ⟨9, 1⟩⟩, ⟨.openBrace, "(", ⟨10, 1⟩⟩,
    ⟨.number, "1", ⟨11, 1⟩⟩, ⟨.closeBrace, ")", ⟨12, 1⟩⟩]

theorem arrange_powersAndNegations :
    Grammar.check powersAndNegations = .ok () ∧
      (∃! e : Phrase, Phrase.At .sum e ∧ e.yield = Token.significant powersAndNegations) ∧
        ∀ e : Phrase, Phrase.At .sum e → e.yield = Token.significant powersAndNegations →
          (Postfix.arrange powersAndNegations).tokens = e.tree.postorder :=
  ⟨rfl, arrange_accepted powersAndNegations rfl⟩

end Calculator
