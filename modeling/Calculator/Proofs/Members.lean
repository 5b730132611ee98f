import Calculator.KindSet

/-!
Sets of kinds and their members. However a set has been made, its members are the kinds that were
put in, whatever their order and repetition, and its size, its list and its phrase follow from them.
This rests on the four bits of the word that belong to no kind: equality, size and emptiness look at
the whole word, membership and the list only at the bits of kinds.
-/
namespace Calculator

namespace Kind

theorem pairwise_all : all.Pairwise fun j k => j.index < k.index := by decide

theorem range_eq_map_all :
    List.range 16 = (all.map fun k => (k.index : Nat)) ++ [12, 13, 14, 15] := rfl

end Kind

/-- The bits that are set, counted one by one. -/
theorem toNat_cpop_eq_countP {width : Nat} (x : BitVec width) :
    x.cpop.toNat = (List.range width).countP x.getLsbD := by
  have hcount : ∀ n, x.cpopNatRec n 0 = (List.range n).countP x.getLsbD := by
    intro n
    induction n with
    | zero => rfl
    | succ n ih =>
      rw [BitVec.cpopNatRec_succ, BitVec.cpopNatRec_eq, ih, List.range_succ, List.countP_append]
      cases hbit : x.getLsbD n <;> simp [hbit]
  rw [BitVec.toNat_cpop, hcount]

namespace KindSet

def Marks (s : KindSet) (ks : List Kind) : Prop :=
  ∀ i, s.mask.toBitVec.getLsbD i = true ↔ ∃ k ∈ ks, (k.index : Nat) = i

section Marking

variable {s s' : KindSet} {ks ks' : List Kind}

theorem marks_empty : empty.Marks [] := by
  intro i
  simp [empty]

theorem Marks.insert (h : s.Marks ks) (k : Kind) : (s.insert k).Marks (ks ++ [k]) := by
  intro i
  rw [getLsbD_insert, Bool.or_eq_true, h i, decide_eq_true_iff]
  simp only [List.mem_append, List.mem_singleton, or_and_right, exists_or, exists_eq_left]

theorem Marks.foldl_insert (h : s.Marks ks) (later : List Kind) :
    (later.foldl KindSet.insert s).Marks (ks ++ later) := by
  induction later generalizing s ks with
  | nil =>
    rw [List.append_nil]
    exact h
  | cons k later ih =>
    have hrest := ih (h.insert k)
    rwa [List.append_assoc] at hrest

theorem marks_ofList (ks : List Kind) : (ofList ks).Marks ks := marks_empty.foldl_insert ks

theorem Marks.contains_iff (h : s.Marks ks) (k : Kind) : s.contains k = true ↔ k ∈ ks := by
  rw [contains_eq_getLsbD, h k.index]
  constructor
  · rintro ⟨j, hj, hindex⟩
    rwa [← Kind.index_injective (Fin.ext hindex)]
  · intro hk
    exact ⟨k, hk, rfl⟩

/-- Words with the same bits are one set. -/
theorem Marks.eq_iff (h : s.Marks ks) (h' : s'.Marks ks') :
    s = s' ↔ ∀ k, k ∈ ks ↔ k ∈ ks' := by
  constructor
  · rintro rfl k
    rw [← h.contains_iff, ← h'.contains_iff]
  · intro hsame
    obtain ⟨mask⟩ := s
    obtain ⟨mask'⟩ := s'
    refine congrArg KindSet.mk (UInt16.eq_of_toBitVec_eq (BitVec.eq_of_getLsbD_eq fun i _ => ?_))
    rw [Bool.eq_iff_iff, h i, h' i]
    simp only [hsame]

theorem Marks.isEmpty_iff (h : s.Marks ks) : s.isEmpty = true ↔ ks = [] := by
  have hempty : s.isEmpty = true ↔ s = empty := by
    obtain ⟨mask⟩ := s
    simp [isEmpty, empty]
  rw [hempty, h.eq_iff marks_empty, List.eq_nil_iff_forall_not_mem]
  simp only [List.not_mem_nil, iff_false]

/-- A bit that belongs to no kind is not counted. -/
theorem Marks.size_eq (h : s.Marks ks) : s.size = s.toList.length := by
  have hnone : [12, 13, 14, 15].countP s.mask.toBitVec.getLsbD = 0 := by
    refine List.countP_eq_zero.mpr fun i hi hbit => ?_
    obtain ⟨k, -, rfl⟩ := (h i).mp hbit
    have hbound := k.index.isLt
    simp only [List.mem_cons, List.not_mem_nil, or_false] at hi
    omega
  have hkinds : (fun k : Kind => s.mask.toBitVec.getLsbD k.index) = s.contains :=
    funext fun k => (contains_eq_getLsbD s k).symm
  calc
    s.size = (List.range 16).countP s.mask.toBitVec.getLsbD := toNat_cpop_eq_countP _
    _ = (Kind.all.map fun k => (k.index : Nat)).countP s.mask.toBitVec.getLsbD := by
      rw [Kind.range_eq_map_all, List.countP_append, hnone, Nat.add_zero]
    _ = Kind.all.countP s.contains := by
      rw [List.countP_map, ← hkinds]
      rfl
    _ = s.toList.length := List.countP_eq_length_filter

end Marking

section Phrases

theorem phrase_cons (name : String) {names : List String} (h : 2 ≤ names.length) :
    phrase (name :: names) = name ++ ", " ++ phrase names := by
  match names, h with
  | _ :: _ :: _, _ => rfl

/-- The last alternative stands behind the word "or", and commas stand between the others. -/
theorem phrase_append_singleton (front : List String) (last : String) :
    phrase (front ++ [last]) =
      if front = [] then last else ", ".intercalate front ++ " or " ++ last := by
  induction front with
  | nil => rfl
  | cons name front ih =>
    cases front with
    | nil => simp [phrase]
    | cons next front =>
      have hlong : 2 ≤ (next :: front ++ [last]).length := by simp
      rw [if_neg (List.cons_ne_nil _ _)] at ih ⊢
      rw [List.cons_append, phrase_cons name hlong, ih, String.intercalate_cons_cons]
      simp only [String.append_assoc]

end Phrases

/-- A way to make a set. Kinds that are collected one after the other are put in as those of a list
are. -/
inductive Recipe where
  | empty
  | operandStart
  | binaryOperators
  | ofList (ks : List Kind)
  | insert (r : Recipe) (k : Kind)

namespace Recipe

def kinds : Recipe → List Kind
  | .empty => []
  | .operandStart => [.number, .decimal, .openBrace, .neg]
  | .binaryOperators => [.add, .sub, .mul, .mod, .div, .exp]
  | .ofList ks => ks
  | .insert r k => r.kinds ++ [k]

def set : Recipe → KindSet
  | .empty => .empty
  | .operandStart => .operandStart
  | .binaryOperators => .binaryOperators
  | .ofList ks => .ofList ks
  | .insert r k => r.set.insert k

/-- By induction on the way in which the set is made. -/
theorem marks (r : Recipe) : r.set.Marks r.kinds := by
  induction r with
  | empty => exact marks_empty
  | operandStart => exact marks_ofList [.number, .decimal, .openBrace, .neg]
  | binaryOperators => exact marks_ofList [.add, .sub, .mul, .mod, .div, .exp]
  | ofList ks => exact marks_ofList ks
  | insert r k ih => exact ih.insert k

end Recipe

structure ConsistsOf (s : KindSet) (ks : List Kind) : Prop where
  contains_iff : ∀ k, s.contains k = true ↔ k ∈ ks
  mem_toList_iff : ∀ k, k ∈ s.toList ↔ k ∈ ks
  ascending : s.toList.Pairwise fun j k => j.index < k.index
  size_eq : s.size = s.toList.length
  isEmpty_iff : s.isEmpty = true ↔ ks = []
  render_nil : ks = [] → s.render = ""
  render_append : ∀ front last, s.toList = front ++ [last] → s.render =
    if front = [] then last.name else ", ".intercalate (front.map Kind.name) ++ " or " ++ last.name

theorem Marks.consistsOf {s : KindSet} {ks : List Kind} (h : s.Marks ks) : s.ConsistsOf ks := by
  refine ⟨h.contains_iff, fun k => (mem_toList s k).trans (h.contains_iff k),
    Kind.pairwise_all.filter s.contains, h.size_eq, h.isEmpty_iff, fun hnone => ?_,
    fun front last hlist => ?_⟩
  · rw [hnone] at h
    rw [(h.eq_iff marks_empty).mpr fun _ => Iff.rfl]
    rfl
  · rw [render, hlist, List.map_append, List.map_singleton, phrase_append_singleton]
    simp

/-- However a set of kinds is made, it tells the kinds that were put in; sets are equal exactly if
the same kinds were put in, in any order and any number of times; and no bit of the word is set but
those of the kinds. -/
theorem recipes_make_members (r : Recipe) :
    r.set.ConsistsOf r.kinds ∧
      (∀ r' : Recipe, r.set = r'.set ↔ ∀ k, k ∈ r.kinds ↔ k ∈ r'.kinds) ∧
      (∀ ks, (∀ k, k ∈ ks ↔ k ∈ r.kinds) → ofList ks = r.set ∧ (ofList ks).render = r.set.render) ∧
      ∀ i, r.set.mask.toBitVec.getLsbD i = true ↔ ∃ k ∈ r.kinds, (k.index : Nat) = i := by
  refine ⟨r.marks.consistsOf, fun r' => r.marks.eq_iff r'.marks, fun ks hsame => ?_, r.marks⟩
  have hset : ofList ks = r.set := ((marks_ofList ks).eq_iff r.marks).mpr hsame
  exact ⟨hset, congrArg render hset⟩

def threeKinds : Recipe := .insert (.insert (.ofList [.exp, .add, .exp]) .number) .add

theorem recipes_make_threeKinds :
    threeKinds.set.toList = [.number, .add, .exp] ∧
      threeKinds.set.render = "T_NUMBER, T_ADD or T_EXP" ∧
      ofList [.number, .exp, .add] = threeKinds.set ∧
      threeKinds.set.contains .add = true ∧ threeKinds.set.size = 3 := by
  have hlist : threeKinds.set.toList = [.number, .add, .exp] := rfl
  obtain ⟨hset, -, hsame, -⟩ := recipes_make_members threeKinds
  refine ⟨hlist, hset.render_append [.number, .add] .exp hlist, (hsame _ ?_).1, ?_, ?_⟩
  · intro k
    cases k <;> decide
  · rw [hset.contains_iff]
    decide
  · rw [hset.size_eq, hlist]
    rfl

end KindSet

end Calculator
