import Calculator.Proofs.Agreement
import Calculator.Proofs.Unplaced

/-!
Phrases that are written without whitespace. The check alone tells where their tokens part and how
each minus is meant, so that the text is scanned into just these tokens and read as just this
phrase, at the places where the tokens stand in the text.
-/
namespace Calculator

open Grammar

/-- Only a minus is written with a minus. -/
theorem Kind.neg_or_sub_of_spells {k : Kind} (h : k.Spells ['-']) : k = .neg ∨ k = .sub := by
  obtain ⟨c, tail, htext, hdigit, hblank, -⟩ := Lexeme.head_of_spells h
  obtain ⟨rfl, -⟩ := List.cons.inj htext
  cases k
  case number => cases hdigit
  case decimal => cases hdigit
  case whitespace => cases hblank
  case neg => exact Or.inl rfl
  case sub => exact Or.inr rfl
  all_goals simp [Spells] at h

namespace Token

def place (p : Position) : List Token → List Token
  | [] => []
  | t :: ts => { t with position := p } :: place (p.advance t.lexeme.toList) ts

def Spelled (ts : List Token) : Prop := ∀ t ∈ ts, t.kind.Spells t.lexeme.toList

section Placing

variable {previous : Option Kind} {depth : Nat} {s s' : State} {t u : Token} {ts : List Token}

theorem map_unplaced_place (p : Position) (ts : List Token) :
    (place p ts).map unplaced = ts.map unplaced := by
  induction ts generalizing p with
  | nil => rfl
  | cons t ts ih =>
    rw [place, List.map_cons, List.map_cons, ih]
    rfl

theorem text_place (p : Position) (ts : List Token) : text (place p ts) = text ts := by
  induction ts generalizing p with
  | nil => rfl
  | cons t ts ih =>
    rw [place, text, text, List.flatMap_cons, List.flatMap_cons]
    exact congrArg (t.lexeme.toList ++ ·) (ih _)

theorem Spelled.place (h : Spelled ts) (p : Position) : Spelled (place p ts) := by
  induction ts generalizing p with
  | nil => exact h
  | cons t ts ih =>
    obtain ⟨ht, hts⟩ := List.forall_mem_cons.mp h
    exact List.forall_mem_cons.mpr ⟨ht, ih hts _⟩

/-- Two literals never stand side by side, since behind a literal no operand is expected. -/
theorem InStep.apart (h : InStep previous depth s) (hstep : s.step t = .ok s')
    (hmem : u.kind ∈ s'.expected) : Apart t u := by
  have hnext := h.step hstep
  refine ⟨?_, ?_⟩
  · intro hblank
    rw [hblank.2] at hmem
    exact hnext.whitespace_notMem hmem
  · intro hliteral
    obtain ⟨ht, hu⟩ := hliteral
    rcases (hnext.mem_expected_iff u.kind).mp hmem with ⟨hminus, -⟩ | ⟨-, hbinary | ⟨hclose, -⟩⟩
    · rw [minus_of_isOperand ht] at hminus
      cases hminus
    · rw [Kind.isOperand_of_binary hbinary] at hu
      cases hu
    · rw [hclose] at hu
      cases hu

theorem isChain_apart_of_advance (h : InStep previous depth s) (hrun : advance s ts = .ok s') :
    ts.IsChain Apart := by
  induction ts generalizing previous depth s with
  | nil => exact .nil
  | cons t ts ih =>
    obtain ⟨mid, hstep, hrest⟩ := advance_cons_eq_ok_iff.mp hrun
    have hchain := ih (h.step hstep) hrest
    cases ts with
    | nil => exact .singleton t
    | cons u ts =>
      obtain ⟨next, hstep', -⟩ := advance_cons_eq_ok_iff.mp hrest
      obtain ⟨hmem, -⟩ := State.step_eq_ok_iff.mp hstep'
      exact .cons_cons (h.apart hstep hmem) hchain

/-- Tokens that the check accepts are a scan of the text that they make up, once they are placed in
it. By induction on the tokens, with scan and check in step. -/
theorem segmented_place {p : Position} (hspelled : Spelled ts) (h : InStep previous depth s)
    (hrun : advance s (place p ts) = .ok s') (hfinish : s'.finish = .ok ()) :
    Segmented p depth previous (place p ts) := by
  induction ts generalizing p previous depth s with
  | nil =>
    cases hrun
    rcases h with ⟨hs, -⟩ | ⟨hs, -⟩
    · exact absurd hfinish hs.finish_ne_ok
    · exact segmented_nil.mpr (hs.finish_eq_ok_iff.mp hfinish)
  | cons t ts ih =>
    have hchain := isChain_apart_of_advance h hrun
    obtain ⟨hspells, hrest⟩ := List.forall_mem_cons.mp (hspelled.place p)
    obtain ⟨next, hstep, hadvance⟩ := advance_cons_eq_ok_iff.mp hrun
    obtain ⟨hmem, -⟩ := State.step_eq_ok_iff.mp hstep
    refine segmented_cons.mpr ⟨rfl, ?_, hspells, ?_, ((apart_cons_iff hrest).mp hchain).1, ?_⟩
    · intro hclose
      rw [hclose] at hmem
      exact Nat.ne_of_gt (h.depth_pos_of_close_mem hmem)
    · intro htext
      rw [htext] at hspells
      exact h.eq_minus (Kind.neg_or_sub_of_spells hspells) hmem
    · have hlookback : lookback previous t.kind = some t.kind :=
        if_neg (h.kind_ne_whitespace hstep)
      have hsegmented := ih (List.forall_mem_cons.mp hspelled).2 (h.step hstep) hadvance
      rw [← hlookback] at hsegmented
      exact hsegmented

theorem significant_eq_self_of_advance (h : InStep previous depth s)
    (hrun : advance s ts = .ok s') : significant ts = ts := by
  induction ts generalizing previous depth s with
  | nil => rfl
  | cons t ts ih =>
    obtain ⟨next, hstep, hrest⟩ := advance_cons_eq_ok_iff.mp hrun
    rw [significant_cons (h.kind_ne_whitespace hstep), ih (h.step hstep) hrest]

theorem text_append (front rest : List Token) : text (front ++ rest) = text front ++ text rest :=
  List.flatMap_append

end Placing

end Token

/-- The text is read as the tree. The sequence that it is arranged into lists the tree, and the
answer to it is the one to the tree; only the places may be others. -/
structure Tree.ReadFrom (e : Tree) (source : String) : Prop where
  listed : ∃ ts p, Token.scan source = .ok ts ∧ Postfix.parse ts = .ok p ∧
    p.tokens.map (fun t => (t.kind, t.lexeme)) = e.postorder.map fun t => (t.kind, t.lexeme)
  answered : ∀ debug,
    (Calculator.evaluate source debug).mapError Error.unplaced = (e.answer debug).mapError Error.unplaced

/-- What a text is read as decides its answer. -/
theorem Tree.ReadFrom.evaluate_eq {e : Tree} {source : String} (h : e.ReadFrom source)
    {value : Float} {steps : List String} (hreckon : e.reckon = (.ok value, steps)) (debug : Bool) :
    Calculator.evaluate source debug =
      .ok ⟨value, if debug then some ⟨steps.toArray⟩ else none⟩ := by
  have hanswered := h.answered debug
  rw [Tree.answer, hreckon] at hanswered
  cases hevaluate : Calculator.evaluate source debug with
  | error err =>
    rw [hevaluate] at hanswered
    cases hanswered
  | ok evaluation =>
    rw [hevaluate] at hanswered
    exact congrArg _ (Except.ok.inj hanswered)

namespace Phrase

section Reading

variable {e : Phrase}

theorem map_kind_place (p : Position) (ts : List Token) :
    (Token.place p ts).map Token.kind = ts.map Token.kind :=
  Token.map_kind_of_unplaced (Token.map_unplaced_place p ts)

/-- Written without whitespace, a phrase is scanned into its own tokens. -/
theorem At.scan_text (h : At .sum e) (hspelled : Token.Spelled e.yield) :
    Token.scan (String.ofList (Token.text e.yield)) = .ok (Token.place .start e.yield) := by
  obtain ⟨s, hrun, hs⟩ := h.derives.advance (map_kind_place .start e.yield) State.awaits_initial
  refine Token.scan_eq_ok_iff.mpr ⟨?_, Token.segmented_place hspelled Token.inStep_initial hrun
    (hs.finish_eq_ok_iff.mpr rfl)⟩
  rw [String.toList_ofList, Token.text_place]

/-- The tokens of a phrase are read as this phrase wherever they stand. -/
theorem At.exists_placed (h : At .sum e) :
    ∃ e', At .sum e' ∧ e'.yield = Token.significant (Token.place .start e.yield) ∧
      e'.tree.map Token.unplaced = e.tree.map Token.unplaced := by
  have hkinds := map_kind_place .start e.yield
  obtain ⟨s, hrun, -⟩ := h.derives.advance hkinds State.awaits_initial
  obtain ⟨e', he', hyield⟩ := exists_of_derives h.derives hkinds
  refine ⟨e', he', ?_, he'.tree_unplaced_eq h ?_⟩
  · rw [hyield, Token.significant_eq_self_of_advance Token.inStep_initial hrun]
  · rw [hyield, Token.map_unplaced_place]

/-- A phrase that is written without whitespace is read as its tree. -/
theorem At.readFrom (h : At .sum e) (hspelled : Token.Spelled e.yield) :
    e.tree.ReadFrom (String.ofList (Token.text e.yield)) := by
  obtain ⟨e', he', hyield, htree⟩ := h.exists_placed
  have hscan := h.scan_text hspelled
  refine ⟨⟨_, Postfix.arrange (Token.place .start e.yield), hscan, ?_, ?_⟩, ?_⟩
  · rw [Postfix.parse, (check_iff_exists_phrase _).mpr ⟨e', he', hyield⟩]
  · refine Token.map_kind_lexeme_of_unplaced ?_
    rw [he'.arrange hyield, ← Tree.postorder_map, ← Tree.postorder_map, htree]
  · intro debug
    rw [evaluate_of_phrase hscan he' hyield, ← Tree.answer_unplaced, ← Tree.answer_unplaced, htree]

end Reading

end Phrase

end Calculator
