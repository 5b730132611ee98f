import Calculator.Phrase
import Calculator.Postfix
import Calculator.Proofs.Strata
import Calculator.Tree.Printer

/-!
A rearrangement with any kind of output. The choices of a rearrangement depend on its tokens and on
whether anything has been put out, not on what is made of the tokens that come out. So they are
studied once, for every way to take these tokens in, and give the listing of tokens as well as the
phrase that the tokens spell.
-/
namespace Calculator

/-- A way to take in literals, operators and closed groups, in the order in which they come out. -/
structure Assembly (α : Type) where
  literal : Token → α → α
  operator : Token → α → α
  group : Token → Token → α → α
  isEmpty : α → Bool
  isEmpty_literal : ∀ t a, isEmpty (literal t a) = false
  isEmpty_operator : ∀ t a, isEmpty a = false → isEmpty (operator t a) = false
  isEmpty_group : ∀ o c a, isEmpty a = false → isEmpty (group o c a) = false

structure Bench (α : Type) where
  output : α
  waiting : List Token

namespace Assembly

variable {α : Type} (m : Assembly α)

def release (incoming : Kind) (a : α) : List Token → Bench α
  | [] => ⟨a, []⟩
  | top :: below =>
    if !m.isEmpty a && top.kind.yieldsTo incoming then
      release incoming (m.operator top a) below
    else ⟨a, top :: below⟩

def close (closing : Token) (a : α) : List Token → Bench α
  | [] => ⟨a, []⟩
  | top :: below =>
    if top.kind = .openBrace then ⟨m.group top closing a, below⟩
    else close closing (m.operator top a) below

def feed (b : Bench α) (t : Token) : Bench α :=
  match t.kind with
  | .number | .decimal => { b with output := m.literal t b.output }
  | .openBrace => { b with waiting := t :: b.waiting }
  | .closeBrace => m.close t b.output b.waiting
  | .add | .sub | .neg | .mul | .mod | .div | .exp =>
    let released := m.release t.kind b.output b.waiting
    { released with waiting := t :: released.waiting }
  | .whitespace => b

def unload (a : α) (waiting : List Token) : α := waiting.foldl (fun a t => m.operator t a) a

/-- What a phrase comes to when its parts are taken in from the inside. -/
def build : Phrase → α → α
  | .literal t, a => m.literal t a
  | .group opening e closing, a => m.group opening closing (build e a)
  | .negation op e, a => m.operator op (build e a)
  | .operation op l r, a => m.operator op (build r (build l a))

end Assembly

/-- How tightly a left operand has to bind for a binary operator to take all of it. -/
def Kind.leftLevel (k : Kind) : Nat :=
  if k.associativity = some .right then k.strength + 1 else k.strength

def Kind.rightLevel (k : Kind) : Nat :=
  if k.associativity = some .right then k.strength else k.strength + 1

def Phrase.Stratum.level : Phrase.Stratum → Nat
  | .sum => 1
  | .product => 2
  | .power => 3
  | .unary => 4
  | .atom => 5

namespace Kind

open Phrase (Stratum)

/-- A waiting operator yields to the binary operators whose left operands need not bind tighter. -/
theorem yieldsTo_iff {top k : Kind} (htop : top.isOperator = true)
    (hk : k.arity = some .binary) : top.yieldsTo k = true ↔ k.leftLevel ≤ top.strength := by
  revert htop hk
  cases k <;> cases top <;> decide

theorem yieldsTo_neg (top : Kind) : top.yieldsTo .neg = false := by
  simp [yieldsTo]

theorem yieldsTo_openBrace (k : Kind) : openBrace.yieldsTo k = false := by
  simp [yieldsTo]

theorem strength_le_leftLevel (k : Kind) : k.strength ≤ k.leftLevel := by
  unfold leftLevel
  split <;> omega

theorem strength_le_rightLevel (k : Kind) : k.strength ≤ k.rightLevel := by
  unfold rightLevel
  split <;> omega

/-- An operator keeps waiting while its right operand is read. -/
theorem not_yieldsTo_of_rightLevel {top k : Kind} (htop : top.arity = some .binary)
    (hk : k.arity = some .binary) (hlevel : top.rightLevel ≤ k.strength) :
    top.yieldsTo k = false := by
  rw [← Bool.not_eq_true, yieldsTo_iff (isOperator_of_binary htop) hk]
  revert htop hk hlevel
  cases k <;> cases top <;> decide

theorem levels_sum {k : Kind} (hk : k = .add ∨ k = .sub) :
    k.leftLevel = Stratum.sum.level ∧ k.rightLevel = Stratum.product.level ∧
      k.strength = Stratum.sum.level := by
  rcases hk with rfl | rfl <;> decide

theorem levels_product {k : Kind} (hk : k = .mul ∨ k = .div ∨ k = .mod) :
    k.leftLevel = Stratum.product.level ∧ k.rightLevel = Stratum.power.level ∧
      k.strength = Stratum.product.level := by
  rcases hk with rfl | rfl | rfl <;> decide

theorem levels_power {k : Kind} (hk : k = .exp) :
    k.leftLevel = Stratum.unary.level ∧ k.rightLevel = Stratum.power.level ∧
      k.strength = Stratum.power.level := by
  rw [hk]
  decide

theorem strength_lt_four {k : Kind} (hk : k.arity = some .binary) : k.strength < 4 := by
  revert hk
  cases k <;> decide

end Kind

/-- No binary operator that binds at least as tightly as `level` releases what waits on top. -/
def Holds (level : Nat) (waiting : List Token) : Prop :=
  ∀ top ∈ waiting.head?, ∀ k : Kind, k.arity = some .binary → level ≤ k.strength →
    top.kind.yieldsTo k = false

def Binds (level : Nat) (waiting : List Token) : Prop :=
  ∀ t ∈ waiting, t.kind.isOperator = true ∧ level ≤ t.kind.strength

section Levels

variable {low high level : Nat} {waiting front : List Token} {op : Token}

theorem holds_nil : Holds level [] := by
  intro top htop
  cases htop

theorem holds_open (hop : op.kind = .openBrace) : Holds level (op :: waiting) := by
  intro top htop k _ _
  cases htop
  rw [hop]
  exact Kind.yieldsTo_openBrace k

theorem holds_binary (hop : op.kind.arity = some .binary) :
    Holds op.kind.rightLevel (op :: waiting) := by
  intro top htop k hk hlevel
  cases htop
  exact Kind.not_yieldsTo_of_rightLevel hop hk hlevel

/-- No binary operator binds so tightly as a negation. -/
theorem holds_four : Holds 4 waiting := by
  intro top _ k hk hlevel
  have := Kind.strength_lt_four hk
  omega

theorem Holds.mono (h : Holds low waiting) (hle : low ≤ high) : Holds high waiting :=
  fun top htop k hk hlevel => h top htop k hk (Nat.le_trans hle hlevel)

theorem binds_nil : Binds level [] := by
  intro t ht
  cases ht

theorem Binds.mono (h : Binds high waiting) (hle : low ≤ high) : Binds low waiting :=
  fun t ht => ⟨(h t ht).1, Nat.le_trans hle (h t ht).2⟩

theorem Binds.append_singleton (h : Binds level front) (hop : op.kind.isOperator = true)
    (hlevel : level ≤ op.kind.strength) : Binds level (front ++ [op]) := by
  intro t ht
  rcases List.mem_append.mp ht with ht | ht
  · exact h t ht
  · rw [List.mem_singleton.mp ht]
    exact ⟨hop, hlevel⟩

end Levels

namespace Assembly

variable {α : Type} (m : Assembly α) {a : α} {waiting front : List Token} {t : Token}

theorem unload_append_singleton (a : α) (front : List Token) (t : Token) :
    m.unload a (front ++ [t]) = m.operator t (m.unload a front) := by
  simp [unload]

theorem isEmpty_unload (ha : m.isEmpty a = false) (waiting : List Token) :
    m.isEmpty (m.unload a waiting) = false := by
  induction waiting generalizing a with
  | nil => exact ha
  | cons top below ih => exact ih (m.isEmpty_operator top a ha)

/-- A negation releases nothing. -/
theorem release_neg (a : α) (waiting : List Token) : m.release .neg a waiting = ⟨a, waiting⟩ := by
  cases waiting with
  | nil => rfl
  | cons top below => simp [release, Kind.yieldsTo_neg]

/-- A binary operator releases what binds as tightly as its left operand, and what waits below
stays if it holds. -/
theorem release_binary {k : Kind} (hk : k.arity = some .binary) (ha : m.isEmpty a = false)
    (hfront : Binds k.leftLevel front) (hwaiting : Holds k.strength waiting) :
    m.release k a (front ++ waiting) = ⟨m.unload a front, waiting⟩ := by
  induction front generalizing a with
  | nil =>
    cases waiting with
    | nil => rfl
    | cons top below =>
      have hstay : top.kind.yieldsTo k = false := hwaiting top rfl k hk (Nat.le_refl _)
      simp [release, hstay, unload]
  | cons top front ih =>
    obtain ⟨htop, hlevel⟩ := hfront top List.mem_cons_self
    have hgo : top.kind.yieldsTo k = true := (Kind.yieldsTo_iff htop hk).mpr hlevel
    have hrest : Binds k.leftLevel front := fun t ht => hfront t (List.mem_cons_of_mem top ht)
    rw [List.cons_append, release, ha, hgo]
    simpa [unload] using ih (m.isEmpty_operator top a ha) hrest

theorem close_append {level : Nat} {opening : Token} (closing : Token) (a : α)
    (below : List Token) (hfront : Binds level front) (hopening : opening.kind = .openBrace) :
    m.close closing a (front ++ opening :: below) =
      ⟨m.group opening closing (m.unload a front), below⟩ := by
  induction front generalizing a with
  | nil => simp [close, hopening, unload]
  | cons top front ih =>
    obtain ⟨htop, -⟩ := hfront top List.mem_cons_self
    have hne : top.kind ≠ .openBrace := by
      intro h
      rw [h] at htop
      cases htop
    rw [List.cons_append, close, if_neg hne]
    exact ih (m.operator top a) fun t ht => hfront t (List.mem_cons_of_mem top ht)

theorem feed_binary (b : Bench α) (ht : t.kind.arity = some .binary) :
    m.feed b t = { m.release t.kind b.output b.waiting with
      waiting := t :: (m.release t.kind b.output b.waiting).waiting } := by
  unfold feed
  cases hk : t.kind <;> simp [hk, Kind.arity] at ht ⊢

/-- The tokens of a phrase that binds as tightly as `level` build the phrase, up to operators that
still wait, wherever what waits below holds at that level. -/
def Runs (level : Nat) (e : Phrase) : Prop :=
  ∀ (a : α) (waiting : List Token), Holds level waiting →
    ∃ (a' : α) (pending : List Token),
      e.yield.foldl m.feed ⟨a, waiting⟩ = ⟨a', pending ++ waiting⟩ ∧
      m.unload a' pending = m.build e a ∧ m.isEmpty a' = false ∧ Binds level pending

variable {m}

theorem Runs.mono {low high : Nat} {e : Phrase} (h : m.Runs high e) (hle : low ≤ high) :
    m.Runs low e := by
  intro a waiting hwaiting
  obtain ⟨a', pending, hrun, hbuild, hempty, hbinds⟩ := h a waiting (hwaiting.mono hle)
  exact ⟨a', pending, hrun, hbuild, hempty, hbinds.mono hle⟩

theorem runs_literal (level : Nat) (ht : t.kind = .number ∨ t.kind = .decimal) :
    m.Runs level (.literal t) := by
  intro a waiting _
  refine ⟨m.literal t a, [], ?_, rfl, m.isEmpty_literal t a, binds_nil⟩
  rcases ht with ht | ht <;> simp [Phrase.yield, feed, ht]

theorem runs_group {opening closing : Token} {e : Phrase} {low : Nat} (level : Nat)
    (hopening : opening.kind = .openBrace) (he : m.Runs low e)
    (hclosing : closing.kind = .closeBrace) : m.Runs level (.group opening e closing) := by
  intro a waiting _
  obtain ⟨a', pending, hrun, hbuild, hempty, hbinds⟩ :=
    he a (opening :: waiting) (holds_open hopening)
  refine ⟨m.group opening closing (m.build e a), [], ?_, rfl, ?_, binds_nil⟩
  · have hopen : m.feed ⟨a, waiting⟩ opening = ⟨a, opening :: waiting⟩ := by
      simp [feed, hopening]
    have hclose := m.close_append closing a' waiting hbinds hopening
    simp only [Phrase.yield, List.cons_append, List.foldl_cons, List.foldl_append, List.foldl_nil,
      hopen, hrun]
    rw [feed, hclosing, ← hbuild]
    exact hclose
  · rw [← hbuild]
    exact m.isEmpty_group opening closing _ (m.isEmpty_unload hempty pending)

theorem runs_negation {op : Token} {e : Phrase} (hop : op.kind = .neg) (he : m.Runs 4 e) :
    m.Runs 4 (.negation op e) := by
  intro a waiting _
  obtain ⟨a', pending, hrun, hbuild, hempty, hbinds⟩ := he a (op :: waiting) holds_four
  refine ⟨a', pending ++ [op], ?_, ?_, hempty, ?_⟩
  · have hpush : m.feed ⟨a, waiting⟩ op = ⟨a, op :: waiting⟩ := by
      simp [feed, hop, release_neg]
    simpa [Phrase.yield, hpush] using hrun
  · rw [unload_append_singleton, hbuild, build]
  · exact hbinds.append_singleton (by rw [hop]; rfl) (by rw [hop]; decide)

/-- An operator that arrives behind its left operand releases exactly that operand, and then waits
below its right operand. -/
theorem runs_operation {op : Token} {l r : Phrase} (hop : op.kind.arity = some .binary)
    (hl : m.Runs op.kind.leftLevel l) (hr : m.Runs op.kind.rightLevel r) :
    m.Runs op.kind.strength (.operation op l r) := by
  intro a waiting hwaiting
  obtain ⟨a₁, pending₁, hrun₁, hbuild₁, hempty₁, hbinds₁⟩ :=
    hl a waiting (hwaiting.mono op.kind.strength_le_leftLevel)
  obtain ⟨a₂, pending₂, hrun₂, hbuild₂, hempty₂, hbinds₂⟩ :=
    hr (m.build l a) (op :: waiting) (holds_binary hop)
  have hfeed : m.feed ⟨a₁, pending₁ ++ waiting⟩ op = ⟨m.build l a, op :: waiting⟩ := by
    rw [feed_binary m _ hop, release_binary m hop hempty₁ hbinds₁ hwaiting, hbuild₁]
  refine ⟨a₂, pending₂ ++ [op], ?_, ?_, hempty₂, ?_⟩
  · simpa [Phrase.yield, hrun₁, hfeed] using hrun₂
  · rw [unload_append_singleton, hbuild₂, build]
  · exact (hbinds₂.mono op.kind.strength_le_rightLevel).append_singleton
      (Kind.isOperator_of_binary hop) (Nat.le_refl _)

end Assembly

namespace Phrase

open Assembly

variable {α : Type} (m : Assembly α)

/-- By induction on the strata: what a phrase needs of the operators below it grows with the level
at which it stands. -/
theorem At.runs {s : Stratum} {e : Phrase} (h : At s e) : m.Runs s.level e := by
  induction h with
  | sumOfProduct _ ih => exact ih.mono (by decide)
  | productOfPower _ ih => exact ih.mono (by decide)
  | powerOfUnary _ ih => exact ih.mono (by decide)
  | unaryOfAtom _ ih => exact ih.mono (by decide)
  | sum hop _ _ ihl ihr =>
    obtain ⟨hleft, hright, hstrength⟩ := Kind.levels_sum hop
    have hrun := runs_operation (m := m) (binary_of_sum hop) (hleft ▸ ihl) (hright ▸ ihr)
    rwa [hstrength] at hrun
  | product hop _ _ ihl ihr =>
    obtain ⟨hleft, hright, hstrength⟩ := Kind.levels_product hop
    have hrun := runs_operation (m := m) (binary_of_product hop) (hleft ▸ ihl) (hright ▸ ihr)
    rwa [hstrength] at hrun
  | power hop _ _ ihl ihr =>
    obtain ⟨hleft, hright, hstrength⟩ := Kind.levels_power hop
    have hrun := runs_operation (m := m) (by rw [hop]; rfl) (hleft ▸ ihl) (hright ▸ ihr)
    rwa [hstrength] at hrun
  | negation hop _ ih => exact runs_negation hop ih
  | literal ht => exact runs_literal _ ht
  | group hopening _ hclosing ih => exact runs_group _ hopening ih hclosing

/-- Taken in from nothing waiting, and unloaded at the end, the tokens of a phrase build it. -/
theorem At.unload_run {s : Stratum} {e : Phrase} (h : At s e) (a : α) :
    m.unload (e.yield.foldl m.feed ⟨a, []⟩).output (e.yield.foldl m.feed ⟨a, []⟩).waiting =
      m.build e a := by
  obtain ⟨a', pending, hrun, hbuild, -, -⟩ := h.runs m a [] holds_nil
  rw [hrun, List.append_nil]
  exact hbuild

end Phrase

end Calculator
