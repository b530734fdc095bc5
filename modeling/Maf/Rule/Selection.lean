/-
# The rule that is selected fits

`getSiblings` of `src/Solver/Rule/SiblingRuleFactory.cpp` finds a sibling pair as long
as forest 0 has a tree with two terminals (`exists_getSiblings`), so the factories
always return a rule for such a forest, and what they return fits the forests
(`allRules_fits`, `basicRules_fits`, `approximationRule_fits`).  Without such a tree
`CheckSingleVertexTreesRule` comes first; `DebugAssertFalseRule`, the last one of
every list, is never reached (`selects_defaultRules`).
-/

import Maf.Rule.Applied

namespace Maf

open Graph SiblingRuleFactory

namespace Forest

variable {F : Forest}

/-- The terminals are the labels of the forest. -/
theorem mem_terminals {x : Label} : x ∈ F.subtrees.filterMap Tree.terminalToLabel ↔ x ∈ F.labels := by
  rw [List.mem_filterMap]
  constructor
  · rintro ⟨t, ht, hx⟩
    obtain ⟨p, m, rfl⟩ := Tree.terminalToLabel_eq_some.1 hx
    exact subset_labels (labels_mem_clusters ht) (by simp)
  · intro hx
    obtain ⟨p, m, hp⟩ := exists_leaf hx
    exact ⟨_, hp, rfl⟩

/-- A tree with an inner node has a cherry. -/
theorem exists_pair_of_node {t : Tree} (ht : t.isTerminal = false) :
    ∃ q p x m p' x' m', Tree.node q (.leaf p x m) (.leaf p' x' m') ∈ t.subtrees := by
  induction t with
  | leaf => cases ht
  | node q l r ihl ihr =>
      cases l with
      | node q' l' r' =>
          obtain ⟨q₁, p, x, m, p', x', m', h⟩ := ihl rfl
          exact ⟨q₁, p, x, m, p', x', m', Tree.mem_subtrees_node.2 (Or.inr (Or.inl h))⟩
      | leaf p x m =>
          cases r with
          | node q' l' r' =>
              obtain ⟨q₁, p, x, m, p', x', m', h⟩ := ihr rfl
              exact ⟨q₁, p, x, m, p', x', m', Tree.mem_subtrees_node.2 (Or.inr (Or.inr h))⟩
          | leaf p' x' m' => exact ⟨q, p, x, m, p', x', m', Tree.mem_subtrees_self _⟩

/-- A forest of single vertices has as many trees as terminals, and no other has. -/
theorem length_terminals_of_isTerminal (h : ∀ t ∈ F, t.isTerminal = true) :
    (F.subtrees.filterMap Tree.terminalToLabel).length = F.length := by
  induction F with
  | nil => rfl
  | cons t F ih =>
      rw [List.forall_mem_cons] at h
      cases t with
      | node => cases h.1
      | leaf p x m =>
          have := ih h.2
          simp only [subtrees, List.flatMap_cons, Tree.subtrees, List.singleton_append, List.length_cons] at this ⊢
          rw [List.filterMap_cons_some (by rfl : Tree.terminalToLabel (.leaf p x m) = some x), List.length_cons, this]

end Forest

namespace SiblingRuleFactory

variable {order : List Label} {F f0 : Forest} {fs : List Forest} {S : Finset Label} {a c x : Label}

/-- **A sibling pair is found** while a tree has two terminals. -/
theorem exists_getSiblings (hF : F.Valid) (horder : ∀ x ∈ F.labels, x ∈ order) {t : Tree} (ht : t ∈ F)
    (hnode : t.isTerminal = false) : ∃ a c, getSiblings order F = some (a, c) := by
  obtain ⟨q, p, x, m, p', x', m', hq⟩ := Forest.exists_pair_of_node hnode
  have hqF : Tree.node q (.leaf p x m) (.leaf p' x' m') ∈ F.subtrees := Forest.mem_subtrees.2 ⟨t, ht, hq⟩
  obtain ⟨hl, -⟩ := Forest.mem_subtrees_children hqF
  have hx := horder x (Forest.subset_labels (Forest.labels_mem_clusters hl) (by simp))
  have hsib : F.sibling (.leaf p x m) = some (.leaf p' x' m') :=
    (Forest.sibling_eq_some_iff hF.distinct).2 ⟨q, Or.inl hqF⟩
  cases hget : getSiblings order F with
  | some pair => exact ⟨pair.1, pair.2, rfl⟩
  | none =>
      have := List.findSome?_eq_none_iff.1 hget x hx
      rw [Forest.labelToTerminal_leaf hF hl] at this
      simp [hsib, Tree.terminalToLabel] at this

/-- The pair that is found are siblings. -/
theorem sibling_of_getSiblings (h : getSiblings order F = some (a, c)) :
    ∃ pa ma pc mc, F.sibling (.leaf pa a ma) = some (.leaf pc c mc) := by
  obtain ⟨label, -, hl⟩ := List.exists_of_findSome?_eq_some h
  split at hl
  · cases hl
  rename_i node hnode
  split at hl
  · cases hl
  rename_i s hs
  split at hl
  · rename_i a' c' ha hc
    obtain ⟨rfl, rfl⟩ := Prod.mk.inj (Option.some.inj hl)
    obtain ⟨pa, ma, rfl⟩ := Tree.terminalToLabel_eq_some.1 ha
    obtain ⟨pc, mc, rfl⟩ := Tree.terminalToLabel_eq_some.1 hc
    exact ⟨pa, ma, pc, mc, hs⟩
  · cases hl

/-- A label between the pair is a label. -/
theorem mem_of_between (hF : F.labels = S) {B : Finset Label} {b : Label} (h : Between F.clusters a c B) (hb : b ∈ B) :
    b ∈ S :=
  hF ▸ Forest.subset_labels h.cluster (Finset.mem_union_right _ hb)

/-- **What `allRules` returns fits the forests.** -/
theorem allRules_fits (hI : ∀ F ∈ f0 :: fs, F.Valid ∧ F.labels = S) {rule : Rule}
    (h : allRules order (f0 :: fs) = some (some rule)) : rule.Fits 0 (f0 :: fs) S := by
  obtain ⟨a, c, x, hp, hor⟩ := checked_of_allRules hI h
  have hlab := (hI f0 (List.mem_cons_self ..)).2
  have haS : a ∈ S := hlab ▸ hp.left
  have hcS : c ∈ S := hlab ▸ hp.right
  rcases hor with rfl | ⟨s, hs, hdecide⟩
  · exact ⟨haS, hcS⟩
  have found : s.bRule = true ∨ s.twoBRule = true → ∀ b ∈ s.labels, b ∈ S := by
    intro hor b hb
    obtain ⟨F, hF, B, -, hbet, hbB⟩ := hs.found hor b hb
    exact mem_of_between (hI F (mem_checked.1 hF)).2 hbet hbB
  have hdecide' := hdecide
  unfold decideRule at hdecide
  split_ifs at hdecide with h₁ h₂ h₃ h₄
  · subst hdecide
    exact ⟨hp.ne, fun F hF => hs.equal h₁ F (mem_checked.2 hF)⟩
  · subst hdecide
    have hb₁ := hs.filledOne h₂ (by simpa using h₁)
    exact ⟨found (Or.inl h₂) _ (Flags.mem_labels.2 ⟨hb₁, Or.inl rfl⟩),
      fun hb₂ => found (Or.inl h₂) _ (Flags.mem_labels.2 ⟨hb₂, Or.inr rfl⟩)⟩
  · subst hdecide
    obtain ⟨F, -, ⟨-, he⟩ | ⟨-, he⟩⟩ := hs.reverseSet h₃ (by simpa using h₁)
    · exact he ▸ hcS
    · exact he ▸ haS
  · subst hdecide
    have htwo : s.twoBRule = true := by
      rw [Bool.and_eq_true] at h₄
      exact h₄.1
    have hb₂ := hs.filledTwo htwo (by simpa using h₂)
    have hb₁ : s.b1Label ≠ 0 := fun h₀ => hb₂ (hs.order h₀)
    exact ⟨found (Or.inr htwo) _ (Flags.mem_labels.2 ⟨hb₁, Or.inl rfl⟩),
      found (Or.inr htwo) _ (Flags.mem_labels.2 ⟨hb₂, Or.inr rfl⟩)⟩
  · subst hdecide
    obtain ⟨ha, hc, hne, hcol⟩ := collected_of_allRules hI h
    exact ⟨ha, hc, fun _ => ⟨hne, hcol⟩⟩

/-- **What `basicRules` returns fits the forests.** -/
theorem basicRules_fits (hI : ∀ F ∈ f0 :: fs, F.Valid ∧ F.labels = S) {rule : Rule}
    (h : basicRules order (f0 :: fs) = some (some rule)) : rule.Fits 0 (f0 :: fs) S := by
  obtain ⟨a, c, ha, hc, hne, rfl | ⟨rfl, hcl⟩ | ⟨bs, rfl, hcol⟩⟩ := collected_of_basicRules hI h
  · exact ⟨ha, hc⟩
  · exact ⟨hne, hcl⟩
  · exact ⟨ha, hc, fun _ => ⟨hne, hcol⟩⟩

section NoException

/-- No round of `allRules` throws. -/
theorem exists_checkForest (hF : F.Valid) (hxF : x ≠ 0 → x ∈ F.labels) {s : Flags} {done : List Forest}
    (hs : Checked a c x done s) (i : ℕ) (p q : Tree) : ∃ s', checkForest a c x i F p q s = some s' := by
  unfold checkForest
  split_ifs
  · exact ⟨_, rfl⟩
  · exact ⟨_, rfl⟩
  · exact ⟨_, rfl⟩
  · have hcheck : ∃ s', checkUncle a c x F p q { s with equalPairRule := false } = some s' := by
      unfold checkUncle
      by_cases hflags : (!s.reverseBRule && !s.twoBRule) = true
      · exact ⟨_, if_pos hflags⟩
      · rw [if_neg hflags]
        have hx₀ : x ≠ 0 := by
          simp only [Bool.and_eq_true, Bool.not_eq_true', not_and_or, Bool.not_eq_false] at hflags
          exact hflags.elim (fun h => (hs.reverse h).1) fun h => (hs.two h).1
        obtain ⟨_, _, hterm, -⟩ := Forest.exists_labelToTerminal hF (hxF hx₀)
        exact ⟨_, by rw [hterm]; rfl⟩
    obtain ⟨s', hs'⟩ := hcheck
    exact ⟨_, by rw [hs']; rfl⟩

/-- The checks of all forests come to a result. -/
theorem exists_checkForests (ha : a ≠ 0) (hc : c ≠ 0) (hxac : x ≠ a ∧ x ≠ c) 
    (hfs : ∀ G ∈ fs, G.Valid ∧ a ∈ G.labels ∧ c ∈ G.labels ∧ (x ≠ 0 → x ∈ G.labels))
    {s : Flags} {done : List Forest} (hs : Checked a c x done s) (i : ℕ) :
    ∃ s', checkForests a c x i fs s = some s' := by
  induction fs generalizing i s done with
  | nil => exact ⟨_, rfl⟩
  | cons f fs ih =>
      obtain ⟨hf, haf, hcf, hxf⟩ := hfs f (List.mem_cons_self ..)
      obtain ⟨pa, ma, hna, -⟩ := Forest.exists_labelToTerminal hf haf
      obtain ⟨pc, mc, hnc, -⟩ := Forest.exists_labelToTerminal hf hcf
      obtain ⟨s₁, hs₁⟩ := exists_checkForest hf hxf hs i (.leaf pa a ma) (.leaf pc c mc)
      unfold checkForests
      rw [hna, hnc]
      dsimp only
      rw [hs₁]
      cases s₁ with
      | none => exact ⟨_, rfl⟩
      | some s₁ =>
          exact ih (fun G hG => hfs G (List.mem_cons_of_mem _ hG)) (checked_checkForest hf hs ha hc hxf hxac hs₁)
            (i + 1)

/-- **`allRules` returns a rule** for a sibling pair. -/
theorem exists_allRules (hI : ∀ F ∈ f0 :: fs, F.Valid ∧ F.labels = S) (hget : getSiblings order f0 = some (a, c)) :
    ∃ rule, allRules order (f0 :: fs) = some (some rule) := by
  have hf0 := (hI f0 (List.mem_cons_self ..)).1
  have hp := pair_of_getSiblings hf0 hget
  obtain ⟨s', hs'⟩ := exists_checkForests (hf0.label_pos hp.left).ne' (hf0.label_pos hp.right).ne' hp.uncle_ne
    (hp.haveLabels hI) hp.checked 1
  unfold allRules
  dsimp only
  rw [hget]
  dsimp only
  rw [hs']
  cases s' with
  | none => exact ⟨_, rfl⟩
  | some s' => exact ⟨_, rfl⟩

/-- **`basicRules` returns a rule** for a sibling pair. -/
theorem exists_basicRules (hI : ∀ F ∈ f0 :: fs, F.Valid ∧ F.labels = S) (hget : getSiblings order f0 = some (a, c)) :
    ∃ rule, basicRules order (f0 :: fs) = some (some rule) := by
  have hp := pair_of_getSiblings (hI f0 (List.mem_cons_self ..)).1 hget
  have hloop : ∀ (i : ℕ) (siblings : Bool) (bs : List (ℕ × List Ptr)),
      ∃ o, collectForests a c i fs siblings bs = some o := by
    have hfs := hp.haveLabels hI
    clear hI
    induction fs with
    | nil => exact fun i siblings bs => ⟨_, rfl⟩
    | cons f fs ih =>
        intro i siblings bs
        obtain ⟨hf, haf, hcf, -⟩ := hfs f (List.mem_cons_self ..)
        obtain ⟨pa, ma, hna, -⟩ := Forest.exists_labelToTerminal hf haf
        obtain ⟨pc, mc, hnc, -⟩ := Forest.exists_labelToTerminal hf hcf
        have ih := ih fun G hG => hfs G (List.mem_cons_of_mem _ hG)
        unfold collectForests
        rw [hna, hnc]
        dsimp only
        split_ifs
        · exact ih _ _ _
        · exact ⟨_, rfl⟩
        · exact ih _ _ _
  obtain ⟨o, ho⟩ := hloop 1 true []
  unfold basicRules
  dsimp only
  rw [hget]
  dsimp only
  rw [ho]
  cases o with
  | none => exact ⟨_, rfl⟩
  | some o => exact ⟨_, rfl⟩

/-- Whether the pair are siblings everywhere is found out. -/
theorem exists_siblingsEverywhere (hfs : ∀ G ∈ fs, G.Valid ∧ a ∈ G.labels ∧ c ∈ G.labels ∧ (x ≠ 0 → x ∈ G.labels)) :
    ∃ b, siblingsEverywhere a c fs = some b ∧ (b = true → ∀ G ∈ fs, {a, c} ∈ G.clusters) := by
  induction fs with
  | nil => exact ⟨true, rfl, by simp⟩
  | cons f fs ih =>
      obtain ⟨hf, haf, hcf, -⟩ := hfs f (List.mem_cons_self ..)
      obtain ⟨pa, ma, hna, -⟩ := Forest.exists_labelToTerminal hf haf
      obtain ⟨pc, mc, hnc, -⟩ := Forest.exists_labelToTerminal hf hcf
      obtain ⟨b, hb, hall⟩ := ih fun G hG => hfs G (List.mem_cons_of_mem _ hG)
      unfold siblingsEverywhere
      rw [hna, hnc]
      simp only [Option.bind_eq_bind, Option.bind_some]
      split_ifs with hsib
      · exact ⟨b, hb, fun h => List.forall_mem_cons.2 ⟨cherry_of_sibling hf.distinct hsib, hall h⟩⟩
      · exact ⟨false, rfl, fun h => absurd h Bool.false_ne_true⟩

/-- **`approximationRule` returns a rule that fits**, when the single vertices of
forest 0 are those of all forests. -/
theorem exists_approximationRule (hI : ∀ F ∈ f0 :: fs, F.Valid ∧ F.labels = S)
    (hsingle : ∀ F ∈ f0 :: fs, ∀ y, (∃ p m, Tree.leaf p y m ∈ F) → ∃ p m, Tree.leaf p y m ∈ f0)
    (hget : getSiblings order f0 = some (a, c)) :
    ∃ rule, approximationRule order (f0 :: fs) = some (some rule) ∧ rule.Fits 0 (f0 :: fs) S := by
  have hf0 := hI f0 (List.mem_cons_self ..)
  have hp := pair_of_getSiblings hf0.1 hget
  obtain ⟨b, hb, hall⟩ := exists_siblingsEverywhere (hp.haveLabels hI)
  have haS : a ∈ S := hf0.2 ▸ hp.left
  have hcS : c ∈ S := hf0.2 ▸ hp.right
  unfold approximationRule
  dsimp only
  rw [hget]
  dsimp only
  rw [hb]
  refine ⟨_, rfl, ?_⟩
  split_ifs with hbt hone
  · exact ⟨hp.ne, List.forall_mem_cons.2 ⟨hp.cherry, hall hbt⟩⟩
  · -- a terminal with a sibling in forest 0 is no single vertex in the other forest
    obtain ⟨f, rfl⟩ := List.length_eq_one_iff.1 hone
    refine ⟨haS, hcS, f, rfl, fun p m hleaf => ?_⟩
    obtain ⟨q, m', hq⟩ := hsingle f (by simp) a ⟨p, m, hleaf⟩
    obtain ⟨pa, ma, pc, mc, hsib⟩ := sibling_of_getSiblings hget
    obtain ⟨u, hu, -, -, haF, -⟩ := Forest.exists_of_sibling hf0.1.distinct hsib
    have hqF : Tree.leaf q a m' ∈ f0.subtrees := Forest.mem_subtrees.2 ⟨_, hq, Tree.mem_subtrees_self _⟩
    have hroot := Forest.parent_eq_none_of_mem hf0.1.distinct hq
    rw [Forest.eq_of_labels_eq hf0.1.distinct hqF haF rfl, hu] at hroot
    cases hroot
  · exact haS

end NoException

end SiblingRuleFactory

section Lists

variable {e : Surroundings} {width t : ℕ} {X : Finset Label} {m : Memory} {Fs : List Forest}

/-- The terminal of a label is a root exactly when it is a tree of the forest. -/
theorem Held.singleVertex_iff {fuel : ℕ} {s : Store} {F : Forest} (h : Held width fuel s F) {x : Label}
    (hx : x ∈ F.labels) :
    ((s.labelToTerminal x).any fun p => (s.nodes p).parent.isNone) = true ↔ ∃ p m, Tree.leaf p x m ∈ F := by
  obtain ⟨p, m, hp, hleaf⟩ := h.labelToTerminal hx
  rw [hp, Option.any_some]
  rcases h.parent hleaf with ⟨hroot, hpar⟩ | ⟨hroot, q, l, r, -, -, hpar⟩
  · rw [Tree.ptr_leaf] at hpar
    exact ⟨fun _ => ⟨p, m, hroot⟩, fun _ => by rw [hpar]; rfl⟩
  · rw [Tree.ptr_leaf] at hpar
    rw [hpar]
    refine ⟨nofun, fun ⟨p', m', hroot'⟩ => absurd hroot' ?_⟩
    have hleaf' := Forest.mem_subtrees.2 ⟨_, hroot', Tree.mem_subtrees_self _⟩
    rwa [Forest.eq_of_labels_eq h.wellFormed.valid.distinct hleaf' hleaf rfl]

/-- **A memory that the solver may hold**: its forests have the labels `X`, and all of
these stand in the order of the labels. -/
structure Holding (e : Surroundings) (width t : ℕ) (X : Finset Label) (m : Memory) (Fs : List Forest) : Prop where
  holds : m.Holds width e.fuel Fs
  length : Fs.length = t
  labels : ∀ F ∈ Fs, F.labels = X
  order : ∀ x ∈ X, x ∈ e.heuristicLabelOrder

/-- The forests that are held are valid, with these labels. -/
theorem Holding.valid (h : Holding e width t X m Fs) : ∀ F ∈ Fs, F.Valid ∧ F.labels = X := by
  intro F hF
  obtain ⟨i, hi⟩ := List.mem_iff_getElem?.1 hF
  obtain ⟨s, -, hheld⟩ := h.holds.get hi
  exact ⟨hheld.wellFormed.valid, h.labels F hF⟩

/-- Forest 0 and its memory. -/
theorem Holding.head {f0 : Forest} {fs : List Forest} (h : Holding e width t X m (f0 :: fs)) :
    ∃ s, m.forests.head? = some s ∧ Held width e.fuel s f0 := by
  obtain ⟨s, hs, hheld⟩ := h.holds.get (i := 0) (F := f0) rfl
  exact ⟨s, by rwa [List.head?_eq_getElem?], hheld⟩

/-- `CheckSingleVertexTreesRule` is left out only when some tree has an inner node. -/
theorem Holding.checkSingleVertexTrees {f0 : Forest} {fs : List Forest} (h : Holding e width t X m (f0 :: fs))
    (c : Context) :
    CheckSingleVertexTreesRule.isApplicable e c m = some (some .checkSingleVertexTrees) ∨
      CheckSingleVertexTreesRule.isApplicable e c m = some none ∧ ∃ t ∈ f0, t.isTerminal = false := by
  obtain ⟨s, hs, hheld⟩ := h.head
  simp only [CheckSingleVertexTreesRule.isApplicable, hs, Option.bind_eq_bind, Option.bind_some, hheld.read,
    hheld.wellFormed.stored.roots, List.length_map]
  split_ifs with hlen
  · exact Or.inl rfl
  · refine Or.inr ⟨rfl, ?_⟩
    by_contra hall
    push Not at hall
    exact hlen (Forest.length_terminals_of_isTerminal fun t ht => by simpa using hall t ht).symm

/-- `SingleVertexTreePropagationRule` is left out only when the same labels are
single vertices in all forests. -/
theorem Holding.singleVertexTreePropagation {f0 : Forest} {fs : List Forest} (h : Holding e width t X m (f0 :: fs))
    (hiter : ∀ m l, (e.iterated m l).Perm l) (c : Context) :
    (∃ rule, SingleVertexTreePropagationRule.isApplicable e c m = some (some rule) ∧ rule.Fits 0 (f0 :: fs) X) ∨
      SingleVertexTreePropagationRule.isApplicable e c m = some none ∧
        ∀ F ∈ f0 :: fs, ∀ y, (∃ p m, Tree.leaf p y m ∈ F) → ∃ p m, Tree.leaf p y m ∈ f0 := by
  obtain ⟨s, hs, hheld⟩ := h.head
  have hX : f0.labels = X := h.labels f0 (List.mem_cons_self ..)
  have hstore : ∀ {i : ℕ} {s : Store}, m.forests[i]? = some s →
      ∃ F, (f0 :: fs)[i]? = some F ∧ Held width e.fuel s F ∧ F.labels = X := by
    intro i s hs
    have hi : i < (f0 :: fs).length := h.holds.length ▸ (List.getElem?_eq_some_iff.1 hs).1
    have hF := List.getElem?_eq_getElem hi
    exact ⟨_, hF, h.holds.held hs hF, h.labels _ (List.getElem_mem hi)⟩
  have hfound : ((f0.subtrees.filterMap Tree.terminalToLabel).any fun label =>
      m.forests.any fun f => (f.labelToTerminal label).isNone) = false := by
    rw [List.any_eq_false]
    intro x hx
    rw [Bool.not_eq_true, List.any_eq_false]
    intro s hs
    obtain ⟨i, hi⟩ := List.mem_iff_getElem?.1 hs
    obtain ⟨F, -, hheld', hlab⟩ := hstore hi
    obtain ⟨p, _, hp, -⟩ := hheld'.labelToTerminal (x := x) (by rw [hlab, ← hX]; exact Forest.mem_terminals.1 hx)
    simp [hp]
  simp only [SingleVertexTreePropagationRule.isApplicable, hs, Option.bind_eq_bind, Option.bind_some, hheld.read,
    hfound, Bool.false_eq_true, if_false]
  set reduced := (f0.subtrees.filterMap Tree.terminalToLabel).filter fun label =>
    (SingleVertexTreePropagationRule.singleVertexTrees m label).contains true &&
      (SingleVertexTreePropagationRule.singleVertexTrees m label).contains false with hreduced
  have hmem : ∀ x ∈ reduced, x ∈ X := fun x hx => hX ▸ Forest.mem_terminals.1 (List.mem_of_mem_filter hx)
  split_ifs with hnil
  · refine Or.inr ⟨rfl, fun F hF y hy => ?_⟩
    obtain ⟨i, hi⟩ := List.mem_iff_getElem?.1 hF
    obtain ⟨s', hs', hheld'⟩ := h.holds.get hi
    have hyF : y ∈ F.labels := by
      obtain ⟨p, m', hp⟩ := hy
      exact Forest.mem_labels.2 ⟨_, hp, by simp⟩
    have hy0 : y ∈ f0.labels := by rwa [hX, ← h.labels F hF]
    by_contra hno
    have hyr : y ∈ reduced := by
      refine List.mem_filter.2 ⟨Forest.mem_terminals.2 hy0, ?_⟩
      simp only [SingleVertexTreePropagationRule.singleVertexTrees, Bool.and_eq_true, List.contains_iff_mem,
        List.mem_map]
      refine ⟨⟨s', List.mem_of_getElem? hs', (hheld'.singleVertex_iff hyF).2 hy⟩, s, List.mem_of_mem_head? hs, ?_⟩
      rw [Bool.eq_false_iff]
      exact fun htrue => hno ((hheld.singleVertex_iff hy0).1 htrue)
    rw [hnil] at hyr
    cases hyr
  · exact Or.inl ⟨_, rfl, fun x hx => hmem x ((hiter m reduced).subset hx)⟩

/-- What a list of rules selects fits the forests. -/
def Selects (X : Finset Label) (Fs : List Forest) (c : Context) (m : Memory) (rules : List IsApplicableFn) : Prop :=
  ∃ rule, firstApplicable c m rules = some rule ∧ rule.Fits 0 Fs X

/-- A rule that is applicable is selected. -/
theorem selects_of_some {c : Context} {f : IsApplicableFn} {rest : List IsApplicableFn} {rule : Rule}
    (hf : f c m = some (some rule)) (hfit : rule.Fits 0 Fs X) : Selects X Fs c m (f :: rest) :=
  ⟨rule, by simp only [firstApplicable, hf, Option.bind_eq_bind, Option.bind_some], hfit⟩

/-- A rule that is not applicable is passed over. -/
theorem selects_of_none {c : Context} {f : IsApplicableFn} {rest : List IsApplicableFn}
    (hf : f c m = some none) (h : Selects X Fs c m rest) : Selects X Fs c m (f :: rest) := by
  obtain ⟨rule, hrule, hfit⟩ := h
  exact ⟨rule, by simp only [firstApplicable, hf, Option.bind_eq_bind, Option.bind_some, hrule], hfit⟩

/-- **The rules for single vertices leave a sibling pair** to the rule after them. -/
theorem selects_of_pair {f0 : Forest} {fs : List Forest} (h : Holding e width t X m (f0 :: fs))
    (hiter : ∀ m l, (e.iterated m l).Perm l) {c : Context} {f : IsApplicableFn} {rest : List IsApplicableFn}
    (hf : (∀ F ∈ f0 :: fs, ∀ y, (∃ p m, Tree.leaf p y m ∈ F) → ∃ p m, Tree.leaf p y m ∈ f0) →
      ∀ a b, SiblingRuleFactory.getSiblings e.heuristicLabelOrder f0 = some (a, b) →
        ∃ rule, f c m = some (some rule) ∧ rule.Fits 0 (f0 :: fs) X) :
    Selects X (f0 :: fs) c m (CheckSingleVertexTreesRule.isApplicable e ::
      SingleVertexTreePropagationRule.isApplicable e :: f :: rest) := by
  rcases h.checkSingleVertexTrees c with hsome | ⟨hnone, u, hu, hnode⟩
  · exact selects_of_some hsome trivial
  refine selects_of_none hnone ?_
  rcases h.singleVertexTreePropagation hiter c with ⟨rule, hrule, hfit⟩ | ⟨hnone', hsingle⟩
  · exact selects_of_some hrule hfit
  refine selects_of_none hnone' ?_
  have hv := (h.valid f0 (List.mem_cons_self ..)).1
  have horder : ∀ x ∈ f0.labels, x ∈ e.heuristicLabelOrder := fun x hx =>
    h.order x (h.labels f0 (List.mem_cons_self ..) ▸ hx)
  obtain ⟨a, b, hget⟩ := SiblingRuleFactory.exists_getSiblings hv horder hu hnode
  obtain ⟨rule, hrule, hfit⟩ := hf hsingle a b hget
  exact selects_of_some hrule hfit

/-- `CutBranchRule` may come first. -/
theorem selects_cutBranch {c : Context} {rest : List IsApplicableFn} (h : Selects X Fs c m rest) :
    Selects X Fs c m (CutBranchRule.isApplicable e :: rest) := by
  have hor : CutBranchRule.isApplicable e c m = some (some .cutBranch) ∨
      CutBranchRule.isApplicable e c m = some none := by
    unfold CutBranchRule.isApplicable
    split_ifs
    all_goals first
      | exact Or.inl rfl
      | exact Or.inr rfl
  rcases hor with hsome | hnone
  · exact selects_of_some hsome trivial
  · exact selects_of_none hnone h

/-- **The default rules** select a rule that fits. -/
theorem selects_defaultRules (h : Holding e width t X m Fs) (hne : Fs ≠ []) (hiter : ∀ m l, (e.iterated m l).Perm l)
    (c : Context) : Selects X Fs c m (defaultRules e) := by
  obtain ⟨f0, fs, rfl⟩ := List.exists_cons_of_ne_nil hne
  refine selects_cutBranch (selects_of_pair h hiter fun _ a b hget => ?_)
  obtain ⟨rule, hrule⟩ := SiblingRuleFactory.exists_allRules h.valid hget
  exact ⟨rule, by rw [h.holds.read]; exact hrule, SiblingRuleFactory.allRules_fits h.valid hrule⟩

/-- The default rules with `basicRules` in place of `allRules`. -/
def basicRuleList (e : Surroundings) : List IsApplicableFn :=
  [CutBranchRule.isApplicable e, CheckSingleVertexTreesRule.isApplicable e,
    SingleVertexTreePropagationRule.isApplicable e,
    fun _ m => SiblingRuleFactory.basicRules e.heuristicLabelOrder (m.read e.fuel), DebugAssertFalseRule.isApplicable]

/-- The basic rules select a rule. -/
theorem selects_basicRuleList (h : Holding e width t X m Fs) (hne : Fs ≠ []) (hiter : ∀ m l, (e.iterated m l).Perm l)
    (c : Context) : Selects X Fs c m (basicRuleList e) := by
  obtain ⟨f0, fs, rfl⟩ := List.exists_cons_of_ne_nil hne
  refine selects_cutBranch (selects_of_pair h hiter fun _ a b hget => ?_)
  obtain ⟨rule, hrule⟩ := SiblingRuleFactory.exists_basicRules h.valid hget
  exact ⟨rule, by rw [h.holds.read]; exact hrule, SiblingRuleFactory.basicRules_fits h.valid hrule⟩

/-- **The approximation rules** select a rule that fits. -/
theorem selects_approximationRules (h : Holding e width t X m Fs) (hne : Fs ≠ [])
    (hiter : ∀ m l, (e.iterated m l).Perm l) (c : Context) : Selects X Fs c m (approximationRules e) := by
  obtain ⟨f0, fs, rfl⟩ := List.exists_cons_of_ne_nil hne
  refine selects_of_pair h hiter fun hsingle a b hget => ?_
  obtain ⟨rule, hrule, hfit⟩ := SiblingRuleFactory.exists_approximationRule h.valid hsingle hget
  exact ⟨rule, by rw [h.holds.read]; exact hrule, hfit⟩

end Lists

end Maf
