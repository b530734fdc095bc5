/-
# Why a rule is selected

A rule that is selected (`src/Solver/BranchingSolverConfiguration.hpp`,
`src/Solver/Rule/SiblingRuleFactory.cpp`) has work to do: the terminals that it cuts off first hang
below a parent in some forest (`Hangs`), and `CheckSingleVertexTreesRule` ends the branch only when every
tree of forest 0 is a single vertex (`Rule.Warranted`).
-/

import Maf.Rule.Selection

namespace Maf

open Graph

/-- **The terminal of the label has a parent** in one of the forests. -/
def Hangs (Fs : List Forest) (x : Label) : Prop := ∃ F ∈ Fs, x ∈ F.labels ∧ ∀ p m, Tree.leaf p x m ∉ F

/-- **The rule has work to do.** -/
def Rule.Warranted (Fs : List Forest) : Rule → Prop
  | .cutBranch => True
  | .checkSingleVertexTrees => ∀ F : Forest, Fs[0]? = some F → ∀ t ∈ F, t.isTerminal = true
  | .singleVertexTreePropagation labels => ∃ x ∈ labels, Hangs Fs x
  | .equalPairReduction _ _ => True
  | .bRule b1 _ => Hangs Fs b1
  | .reverseB x => Hangs Fs x
  | .twoB x _ => Hangs Fs x
  | .acBranching a c => Hangs Fs a ∧ Hangs Fs c
  | .abcBranching a c _ => Hangs Fs a ∧ Hangs Fs c
  | .forcedCherryCut _ _ => True
  | .greedyCherryCut a _ => Hangs Fs a
  | .debugAssertFalse => True

/-- The forest of a number, where the memory has one. -/
theorem Memory.Holds.forest {width fuel i : ℕ} {m : Memory} {Fs : List Forest} {s : Store}
    (hm : m.Holds width fuel Fs)
    (hs : m.forests[i]? = some s) : ∃ F, Fs[i]? = some F ∧ Held width fuel s F := by
  have hi : i < Fs.length := by
    rw [← hm.length]
    exact (List.getElem?_eq_some_iff.1 hs).1
  exact ⟨Fs[i], List.getElem?_eq_getElem hi, hm.held hs (List.getElem?_eq_getElem hi)⟩

section Hangs

variable {Fs : List Forest} {F : Forest} {x y : Label} {Y : Finset Label}

/-- A label that shares a cluster with another one. -/
theorem hangs_of_mem_cluster (hF : F ∈ Fs) (hd : F.Distinct) (hY : Y ∈ F.clusters) (hx : x ∈ Y)
    (hy : y ∈ Y)
    (hne : y ≠ x) : Hangs Fs x := by
  obtain ⟨t, ht, hYt⟩ := Forest.mem_clusters.1 hY
  have hxt := Tree.subset_labels hYt hx
  refine ⟨F, hF, Forest.mem_labels.2 ⟨t, ht, hxt⟩, fun p m hroot => hne ?_⟩
  obtain rfl := hd.eq_of_mem ht hroot hxt (by simp)
  simpa using Tree.subset_labels hYt hy

/-- What hangs between two labels. -/
theorem hangs_of_between (hF : F ∈ Fs) (hd : F.Distinct) {a c : Label} {B : Finset Label}
    (h : Between F.clusters a c B) (hx : x ∈ B) : Hangs Fs x := by
  refine hangs_of_mem_cluster hF hd h.cluster (Finset.mem_union_right _ hx) (y := a) (by simp) ?_
  rintro rfl
  exact h.notMem.1 hx

end Hangs

namespace SiblingRuleFactory

variable {order : List Label} {f0 : Forest} {fs : List Forest} {S : Finset Label} {a c x : Label}
  {rule : Rule}

/-- The pair of forest 0 hangs there. -/
theorem Pair.hangs (h : Pair order f0 a c x) (hd : f0.Distinct) (fs : List Forest) :
    Hangs (f0 :: fs) a ∧ Hangs (f0 :: fs) c :=
  ⟨hangs_of_mem_cluster (List.mem_cons_self ..) hd h.cherry (by simp) (by simp) h.ne.symm,
    hangs_of_mem_cluster (List.mem_cons_self ..) hd h.cherry (by simp) (by simp) h.ne⟩

/-- **What `allRules` returns has work to do.** -/
theorem allRules_warranted (hI : ∀ F ∈ f0 :: fs, F.Valid ∧ F.labels = S)
    (h : allRules order (f0 :: fs) = some (some rule)) : rule.Warranted (f0 :: fs) := by
  obtain ⟨a, c, x, hp, hor⟩ := checked_of_allRules hI h
  have hac := hp.hangs (hI f0 (List.mem_cons_self ..)).1.distinct fs
  rcases hor with rfl | ⟨s, hs, hdecide⟩
  · exact hac
  have found : s.bRule = true ∨ s.twoBRule = true → s.b1Label ≠ 0 → Hangs (f0 :: fs) s.b1Label := by
    intro hor hne
    obtain ⟨F, hF, B, -, hbet, hbB⟩ := hs.found hor _ (Flags.mem_labels.2 ⟨hne, Or.inl rfl⟩)
    exact hangs_of_between (mem_checked.1 hF) (hI F (mem_checked.1 hF)).1.distinct hbet hbB
  unfold decideRule at hdecide
  split_ifs at hdecide with h₁ h₂ h₃ h₄
  · subst hdecide
    trivial
  · subst hdecide
    exact found (Or.inl h₂) (hs.filledOne h₂ (by simpa using h₁))
  · subst hdecide
    obtain ⟨F, -, ⟨-, he⟩ | ⟨-, he⟩⟩ := hs.reverseSet h₃ (by simpa using h₁)
    · exact he ▸ hac.2
    · exact he ▸ hac.1
  · subst hdecide
    have htwo : s.twoBRule = true := by
      rw [Bool.and_eq_true] at h₄
      exact h₄.1
    have hb₂ := hs.filledTwo htwo (by simpa using h₂)
    exact found (Or.inr htwo) fun h₀ => hb₂ (hs.order h₀)
  · subst hdecide
    exact hac

/-- **What `basicRules` returns has work to do.** -/
theorem basicRules_warranted (hI : ∀ F ∈ f0 :: fs, F.Valid ∧ F.labels = S)
    (h : basicRules order (f0 :: fs) = some (some rule)) : rule.Warranted (f0 :: fs) := by
  have hf0 := (hI f0 (List.mem_cons_self ..)).1
  unfold basicRules at h
  dsimp only at h
  cases hsib : getSiblings order f0 with
  | none => rw [hsib] at h; cases h
  | some pair =>
      obtain ⟨a, c⟩ := pair
      rw [hsib] at h
      dsimp only at h
      have hac := (pair_of_getSiblings hf0 hsib).hangs hf0.distinct fs
      split at h
      · cases h
      · obtain rfl := Option.some.inj (Option.some.inj h)
        exact hac
      · obtain rfl := Option.some.inj (Option.some.inj h)
        split_ifs
        · trivial
        · exact hac

/-- **What `approximationRule` returns has work to do.** -/
theorem approximationRule_warranted (hI : ∀ F ∈ f0 :: fs, F.Valid ∧ F.labels = S)
    (h : approximationRule order (f0 :: fs) = some (some rule)) : rule.Warranted (f0 :: fs) := by
  have hf0 := (hI f0 (List.mem_cons_self ..)).1
  unfold approximationRule at h
  dsimp only at h
  cases hsib : getSiblings order f0 with
  | none => rw [hsib] at h; cases h
  | some pair =>
      obtain ⟨a, c⟩ := pair
      rw [hsib] at h
      dsimp only at h
      have hac := (pair_of_getSiblings hf0 hsib).hangs hf0.distinct fs
      rw [Option.bind_eq_bind, Option.bind_eq_some_iff] at h
      obtain ⟨b, -, h⟩ := h
      obtain rfl := Option.some.inj (Option.some.inj h)
      split_ifs
      · trivial
      · trivial
      · exact hac.1

end SiblingRuleFactory

section Lists

variable {e : Surroundings} {width t : ℕ} {X : Finset Label} {m : Memory} {Fs : List Forest}
  {c : Context} {rule : Rule}

/-- A tree has a terminal, and two below an inner node. -/
theorem Tree.length_terminals (t : Tree) : 1 ≤ (t.subtrees.filterMap Tree.terminalToLabel).length ∧
    (t.isTerminal = false → 2 ≤ (t.subtrees.filterMap Tree.terminalToLabel).length) := by
  induction t with
  | leaf p x m => exact ⟨le_rfl, nofun⟩
  | node p l r ihl ihr =>
      have hsum : ((Tree.node p l r).subtrees.filterMap Tree.terminalToLabel).length =
          (l.subtrees.filterMap Tree.terminalToLabel).length + (r.subtrees.filterMap Tree.terminalToLabel).length := by
        rw [Tree.subtrees, List.filterMap_cons_none (by rfl), List.filterMap_append, List.length_append]
      have h₁ := ihl.1
      have h₂ := ihr.1
      exact ⟨by omega, fun _ => by omega⟩

/-- As many terminals as trees: every tree is one. -/
theorem Forest.isTerminal_of_length_terminals {F : Forest}
    (h : F.length = (F.subtrees.filterMap Tree.terminalToLabel).length) :
    ∀ t ∈ F, t.isTerminal = true := by
  have sum : ∀ (t : Tree) (F : Forest), (Forest.subtrees (t :: F)).filterMap Tree.terminalToLabel =
      t.subtrees.filterMap Tree.terminalToLabel ++ F.subtrees.filterMap Tree.terminalToLabel := fun t F => by
    rw [Forest.subtrees, List.flatMap_cons, List.filterMap_append]
    rfl
  have least : ∀ F : Forest, F.length ≤ (F.subtrees.filterMap Tree.terminalToLabel).length := by
    intro F
    induction F with
    | nil => exact Nat.zero_le _
    | cons t F ih =>
        have ht := t.length_terminals.1
        rw [sum, List.length_append, List.length_cons]
        omega
  induction F with
  | nil => exact fun t ht => absurd ht List.not_mem_nil
  | cons t F ih =>
      have ht := t.length_terminals
      have hF := least F
      rw [sum, List.length_append, List.length_cons] at h
      refine List.forall_mem_cons.2 ⟨?_, ih (by omega)⟩
      by_contra hno
      have := ht.2 (by simpa using hno)
      omega

/-- **`CheckSingleVertexTreesRule` sees single vertices only.** -/
theorem Holding.checkSingleVertexTrees_warranted (h : Holding e width t X m Fs)
    (hsel : CheckSingleVertexTreesRule.isApplicable e c m = some (some rule)) :
    rule = .checkSingleVertexTrees ∧ rule.Warranted Fs := by
  simp only [CheckSingleVertexTreesRule.isApplicable, Option.bind_eq_bind, Option.bind_eq_some_iff] at hsel
  obtain ⟨s, hs, hsel⟩ := hsel
  rw [List.head?_eq_getElem?] at hs
  obtain ⟨F, hF, hheld⟩ := h.holds.forest hs
  split_ifs at hsel with hlen
  · obtain rfl := Option.some.inj (Option.some.inj hsel)
    refine ⟨rfl, fun G hG => ?_⟩
    obtain rfl := Option.some.inj (hF.symm.trans hG)
    rw [hheld.read, hheld.wellFormed.stored.roots, List.length_map] at hlen
    exact Forest.isTerminal_of_length_terminals hlen
  · cases hsel

/-- **A label that `SingleVertexTreePropagationRule` propagates** is no single vertex everywhere. -/
theorem Holding.singleVertexTreePropagation_warranted (h : Holding e width t X m Fs)
    (hiter : ∀ m l, (e.iterated m l).Perm l)
    (hsel : SingleVertexTreePropagationRule.isApplicable e c m = some (some rule)) :
    rule.Warranted Fs := by
  simp only [SingleVertexTreePropagationRule.isApplicable, Option.bind_eq_bind, Option.bind_eq_some_iff] at hsel
  obtain ⟨s, hs, hsel⟩ := hsel
  split_ifs at hsel with hmiss hnil
  · cases hsel
  · obtain rfl := Option.some.inj (Option.some.inj hsel)
    obtain ⟨x, hx⟩ := List.exists_mem_of_ne_nil _ hnil
    refine ⟨x, (hiter _ _).symm.subset hx, ?_⟩
    -- in some forest its terminal is no root
    obtain ⟨hmem, hboth⟩ := List.mem_filter.1 hx
    rw [Bool.and_eq_true] at hboth
    obtain ⟨f, hf, hno⟩ := List.mem_map.1 (List.contains_iff_mem.1 hboth.2)
    obtain ⟨i, hi⟩ := List.mem_iff_getElem?.1 hf
    obtain ⟨F, hF, hheld⟩ := h.holds.forest hi
    have hxF : x ∈ F.labels := by
      rw [List.head?_eq_getElem?] at hs
      obtain ⟨F₀, hF₀, hheld₀⟩ := h.holds.forest hs
      rw [hheld₀.read, Forest.mem_terminals, h.labels F₀ (List.mem_of_getElem? hF₀)] at hmem
      rwa [h.labels F (List.mem_of_getElem? hF)]
    refine ⟨F, List.mem_of_getElem? hF, hxF, fun p k hroot => ?_⟩
    rw [(hheld.singleVertex_iff hxF).2 ⟨p, k, hroot⟩] at hno
    cases hno

/-- What is selected was returned by one of the rules of the list. -/
theorem mem_of_firstApplicable {rules : List IsApplicableFn}
    (h : firstApplicable c m rules = some rule) :
    ∃ f ∈ rules, f c m = some (some rule) := by
  induction rules with
  | nil => cases h
  | cons f rules ih =>
      rw [firstApplicable, Option.bind_eq_bind, Option.bind_eq_some_iff] at h
      obtain ⟨o, hf, h⟩ := h
      cases o with
      | none =>
          obtain ⟨g, hg, hsome⟩ := ih h
          exact ⟨g, List.mem_cons_of_mem _ hg, hsome⟩
      | some r =>
          obtain rfl := Option.some.inj h
          exact ⟨f, List.mem_cons_self .., hf⟩

/-- **What is selected has work to do**, in each of the three rule lists. -/
theorem Holding.warranted (h : Holding e width t X m Fs) (hne : Fs ≠ [])
    (hiter : ∀ m l, (e.iterated m l).Perm l)
    {rules : List IsApplicableFn}
    (hrules : rules = defaultRules e ∨ rules = approximationRules e ∨ rules = basicRuleList e)
    (hsel : firstApplicable c m rules = some rule) : rule.Warranted Fs := by
  obtain ⟨f, hf, hsome⟩ := mem_of_firstApplicable hsel
  obtain ⟨f0, fs, rfl⟩ := List.exists_cons_of_ne_nil hne
  have hcut : CutBranchRule.isApplicable e c m = some (some rule) → rule.Warranted (f0 :: fs) := fun hsome => by
    unfold CutBranchRule.isApplicable at hsome
    split_ifs at hsome
    all_goals
      cases hsome
      try trivial
  have hassert : DebugAssertFalseRule.isApplicable c m = some (some rule) → rule.Warranted (f0 :: fs) := fun hsome => by
    obtain rfl := Option.some.inj (Option.some.inj hsome)
    trivial
  rcases hrules with rfl | rfl | rfl
  · simp only [defaultRules, List.mem_cons, List.not_mem_nil, or_false] at hf
    rcases hf with rfl | rfl | rfl | rfl | rfl
    · exact hcut hsome
    · exact (h.checkSingleVertexTrees_warranted hsome).2
    · exact h.singleVertexTreePropagation_warranted hiter hsome
    · dsimp only at hsome
      rw [h.holds.read] at hsome
      exact SiblingRuleFactory.allRules_warranted h.valid hsome
    · exact hassert hsome
  · simp only [approximationRules, List.mem_cons, List.not_mem_nil, or_false] at hf
    rcases hf with rfl | rfl | rfl | rfl
    · exact (h.checkSingleVertexTrees_warranted hsome).2
    · exact h.singleVertexTreePropagation_warranted hiter hsome
    · dsimp only at hsome
      rw [h.holds.read] at hsome
      exact SiblingRuleFactory.approximationRule_warranted h.valid hsome
    · exact hassert hsome
  · simp only [basicRuleList, List.mem_cons, List.not_mem_nil, or_false] at hf
    rcases hf with rfl | rfl | rfl | rfl | rfl
    · exact hcut hsome
    · exact (h.checkSingleVertexTrees_warranted hsome).2
    · exact h.singleVertexTreePropagation_warranted hiter hsome
    · dsimp only at hsome
      rw [h.holds.read] at hsome
      exact SiblingRuleFactory.basicRules_warranted h.valid hsome
    · exact hassert hsome

end Lists

end Maf
