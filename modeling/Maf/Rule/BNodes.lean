/-
# The subtrees between two terminals

`src/Solver/Rule/SiblingRuleFactory.cpp` collects the b-nodes of the ABC branching
rule in three ways: `checkBNodes` names one or two subtrees, and otherwise the way up
from `a` to the lowest common ancestor is climbed, and then that from `c`
(`bNodesBetween`).  In every case these are all subtrees that hang from the path
between the two terminals, each of them once (`PathNodes`).  The list of an ABC rule
names them for every forest where the two are no siblings (`Collected`).
-/

import Maf.Rule.SiblingRuleFactory

namespace Maf

open SiblingRuleFactory

/-- **The subtrees `B` hang from the path between the terminals `a` and `c`**, and
there are no others. -/
structure PathNodes (F : Forest) (a c : Label) (B : List Tree) : Prop where
  mem : ∀ b ∈ B, b ∈ F.subtrees
  pendant : ∀ b ∈ B, Pendant F.clusters a c b.labels
  apart : B.Pairwise fun b b' => Disjoint b.labels b'.labels
  cluster : {a, c} ∪ Forest.labels B ∈ F.clusters

section PathNodes

variable {F : Forest} {a c : Label} {B : List Tree}

/-- Between the leaves of a cherry nothing hangs. -/
theorem PathNodes.of_cherry (h : {a, c} ∈ F.clusters) : PathNodes F a c [] :=
  ⟨by simp, by simp, List.Pairwise.nil, by simpa using h⟩

/-- **Every subtree that hangs from the path is one of them.** -/
theorem PathNodes.complete (h : PathNodes F a c B) (hF : F.Distinct) {u : Tree} (hu : u ∈ F.subtrees)
    (hp : Pendant F.clusters a c u.labels) : u ∈ B := by
  have hC := Forest.hierarchy hF
  obtain ⟨x, hx⟩ := u.labels_nonempty
  have hxT := hp.subset hC h.cluster (by simp) (by simp) hx
  have hxB : x ∈ Forest.labels B := by
    refine (Finset.mem_union.1 hxT).resolve_left fun hxac => ?_
    rcases Finset.mem_insert.1 hxac with rfl | hxac
    · exact hp.notMem.1 hx
    · exact hp.notMem.2 (Finset.mem_singleton.1 hxac ▸ hx)
  obtain ⟨b, hb, hxb⟩ := Forest.mem_labels.1 hxB
  rcases hp.eq_or_disjoint hC (h.pendant b hb) with he | hd
  · exact Forest.eq_of_labels_eq hF hu (h.mem b hb) he ▸ hb
  · exact absurd hxb (Finset.disjoint_left.1 hd hx)

/-- What `checkBNodes` finds. -/
theorem PathNodes.of_bNodes {p q : Tree} (hB : BNodes F p q B) (hp : p.labels = {a}) (hq : q.labels = {c})
    (hd : B.Pairwise fun b b' => Disjoint b.labels b'.labels) : PathNodes F a c B := by
  refine ⟨hB.mem, fun b hb => ⟨Forest.labels_mem_clusters (hB.mem b hb), ?_⟩, hd, ?_⟩
  · obtain ⟨P, hP, hPb, hd, hor⟩ := hB.pendant b hb
    rw [hp, hq, Finset.singleton_subset_iff, Finset.disjoint_singleton_right, Finset.singleton_subset_iff,
      Finset.disjoint_singleton_right] at hor
    exact ⟨P, hP, hPb, hd, hor⟩
  · have hcl := hB.cluster
    rw [hp, hq] at hcl
    exact hcl

end PathNodes

namespace Forest

/-- Two labels of a tree are parted by some node. -/
theorem exists_parting {t : Tree} {a c : Label} (ha : a ∈ t.labels) (hc : c ∈ t.labels) (hne : a ≠ c) :
    ∃ q l r, Tree.node q l r ∈ t.subtrees ∧ (a ∈ l.labels ∧ c ∈ r.labels ∨ a ∈ r.labels ∧ c ∈ l.labels) := by
  induction t with
  | leaf p x m =>
      rw [Tree.labels, Finset.mem_singleton] at ha hc
      exact absurd (ha.trans hc.symm) hne
  | node p l r ihl ihr =>
      rcases Finset.mem_union.1 ha with hal | har <;> rcases Finset.mem_union.1 hc with hcl | hcr
      · obtain ⟨q, l', r', hq, hor⟩ := ihl hal hcl
        exact ⟨q, l', r', Tree.mem_subtrees_node.2 (Or.inr (Or.inl hq)), hor⟩
      · exact ⟨p, l, r, Tree.mem_subtrees_self _, Or.inl ⟨hal, hcr⟩⟩
      · exact ⟨p, l, r, Tree.mem_subtrees_self _, Or.inr ⟨har, hcl⟩⟩
      · obtain ⟨q, l', r', hq, hor⟩ := ihr har hcr
        exact ⟨q, l', r', Tree.mem_subtrees_node.2 (Or.inr (Or.inr hq)), hor⟩

/-- There are at least as many nodes as labels. -/
theorem card_labels_le {F : Forest} : F.labels.card ≤ F.subtrees.length := by
  have hsub : F.labels ⊆ (F.subtrees.filterMap Tree.terminalToLabel).toFinset := by
    intro x hx
    obtain ⟨p, m, hp⟩ := exists_leaf hx
    rw [List.mem_toFinset, List.mem_filterMap]
    exact ⟨_, hp, rfl⟩
  exact (Finset.card_le_card hsub).trans ((List.toFinset_card_le _).trans (List.length_filterMap_le _ _))

end Forest

section Climb

variable {F : Forest} {top : Tree → Bool} {u d : Tree}

/-- What the climb from `it` to the child `d` of the node `u` collects. -/
structure Climbed (F : Forest) (it d : Tree) (L : List Tree) : Prop where
  mem : ∀ b ∈ L, b ∈ F.subtrees
  labels : it.labels ∪ Forest.labels L = d.labels
  apart : (it :: L).Pairwise fun b b' => Disjoint b.labels b'.labels
  pendant : ∀ b ∈ L, ∃ P ∈ F.clusters, it.labels ⊆ P ∧ P ∪ b.labels ∈ F.clusters ∧ Disjoint P b.labels ∧
    P ∪ b.labels ⊆ d.labels

/-- **The climb** stops below the first node that satisfies `top`, here `u`. -/
theorem climbed (hF : F.Distinct) (hu : u ∈ F.subtrees) (hd : Tree.HasChild d u) (htop : top u = true)
    (hbelow : ∀ p ∈ d.subtrees, top p = false) {fuel : ℕ} {it : Tree} (hit : it ∈ d.subtrees)
    (hfuel : d.labels.card < it.labels.card + fuel) :
    Climbed F it d (collectBNodes F top fuel it) ∧ climb F top fuel it = some u := by
  have hdF : d ∈ F.subtrees := by
    obtain ⟨p, l, r, rfl, hlr⟩ := Tree.hasChild_iff.1 hd
    obtain ⟨hl, hr⟩ := Forest.mem_subtrees_children hu
    rcases hlr with rfl | rfl
    · exact hl
    · exact hr
  induction fuel generalizing it with
  | zero =>
      have := Finset.card_le_card (Tree.labels_subset_of_mem_subtrees hit)
      omega
  | succ fuel ih =>
      unfold collectBNodes climb
      by_cases hdit : it = d
      · subst hdit
        rw [(Forest.parent_eq_some_iff hF).2 ⟨hu, hd⟩]
        simp only [htop, if_true, and_true]
        exact ⟨by simp, by simp, by simp, by simp⟩
      -- the parent lies below `d`, too
      obtain ⟨q, l, r, hq, hlr⟩ : ∃ q l r, Tree.node q l r ∈ d.subtrees ∧ (it = l ∨ it = r) := by
        have hroot := Forest.root_or_child (F := [d]) (s := it) (Forest.mem_subtrees.2 ⟨d, by simp, hit⟩)
        simpa [hdit, Forest.subtrees] using hroot
      have hqF : Tree.node q l r ∈ F.subtrees := by
        obtain ⟨t, ht, hdt⟩ := Forest.mem_subtrees.1 hdF
        exact Forest.mem_subtrees.2 ⟨t, ht, Tree.subtrees_trans hq hdt⟩
      have hpar : F.parent it = some (.node q l r) :=
        (Forest.parent_eq_some_iff hF).2 ⟨hqF, hlr.imp Eq.symm Eq.symm⟩
      obtain ⟨o, ho⟩ : ∃ o, F.sibling it = some o := by
        rcases hlr with rfl | rfl
        · exact ⟨r, (Forest.sibling_eq_some_iff hF).2 ⟨q, Or.inl hqF⟩⟩
        · exact ⟨l, (Forest.sibling_eq_some_iff hF).2 ⟨q, Or.inr hqF⟩⟩
      obtain ⟨s, hs, -, -, hitF, hoF, hlab, hdis⟩ := Forest.exists_of_sibling hF ho
      obtain rfl : s = .node q l r := Option.some.inj (hs.symm.trans hpar)
      have hcard : it.labels.card < (Tree.node q l r).labels.card := by
        rw [hlab, Finset.card_union_of_disjoint hdis]
        have := o.labels_nonempty.card_pos
        omega
      obtain ⟨hcl, hclimb⟩ := ih hq (by omega)
      rw [hpar, ho]
      simp only [hbelow _ hq, Bool.false_eq_true, if_false, Option.toList_some, List.singleton_append]
      refine ⟨⟨?_, ?_, ?_, ?_⟩, hclimb⟩
      · exact List.forall_mem_cons.2 ⟨hoF, hcl.mem⟩
      · rw [← hcl.labels, Forest.labels_cons, hlab, Finset.union_assoc]
      · have hapart := List.pairwise_cons.1 hcl.apart
        rw [hlab] at hapart
        refine List.pairwise_cons.2 ⟨?_, List.pairwise_cons.2 ⟨fun b hb => ?_, hapart.2⟩⟩
        · exact List.forall_mem_cons.2 ⟨hdis, fun b hb => (hapart.1 b hb).mono_left Finset.subset_union_left⟩
        · exact (hapart.1 b hb).mono_left Finset.subset_union_right
      · refine List.forall_mem_cons.2 ⟨⟨it.labels, Forest.labels_mem_clusters hitF, Finset.Subset.refl _, ?_, hdis, ?_⟩,
          fun b hb => ?_⟩
        · exact hlab ▸ Forest.labels_mem_clusters hqF
        · exact hlab ▸ Tree.labels_subset_of_mem_subtrees hq
        · obtain ⟨P, hP, hsub, hPb, hd', hle⟩ := hcl.pendant b hb
          exact ⟨P, hP, (hlab ▸ Finset.subset_union_left).trans hsub, hPb, hd', hle⟩

end Climb

section Between

variable {F : Forest} {a c : Label} {pa pc : Ptr} {ma mc : Finset Label}

/-- **The two climbs meet below the lowest common ancestor.** -/
theorem pathNodes_bNodesBetween (hF : F.Valid) (ha : .leaf pa a ma ∈ F.subtrees) (hc : .leaf pc c mc ∈ F.subtrees)
    (hne : a ≠ c) (hcon : F.connected (.leaf pa a ma) (.leaf pc c mc) = true) :
    PathNodes F a c (bNodesBetween F (.leaf pa a ma) (.leaf pc c mc)) := by
  have hD := hF.distinct
  -- the two lie in one tree, and some node parts them
  obtain ⟨t, ht, hat, hct⟩ : ∃ t ∈ F, a ∈ t.labels ∧ c ∈ t.labels := by
    unfold Forest.connected at hcon
    cases hroot : F.rootOf (.leaf pa a ma) with
    | none => rw [hroot] at hcon; cases hcon
    | some t =>
        rw [hroot] at hcon
        have hct := of_decide_eq_true hcon
        have ht : t ∈ F := List.mem_of_find?_eq_some hroot
        have hat : (Tree.leaf pa a ma).subtreeTerminals ⊆ t.subtreeTerminals :=
          of_decide_eq_true (List.find?_some (p := fun t : Tree =>
            decide ((Tree.leaf pa a ma).subtreeTerminals ⊆ t.subtreeTerminals)) hroot)
        have inTree : ∀ {p : Ptr} {x : Label} {m : Finset Label}, Tree.leaf p x m ∈ F.subtrees →
            (Tree.leaf p x m).subtreeTerminals ⊆ t.subtreeTerminals → x ∈ t.labels := by
          intro p x m hx hsub
          obtain ⟨t', ht', hxt⟩ := Forest.mem_subtrees.1 hx
          have hx' : x ∈ t'.subtreeTerminals := Tree.subtreeTerminals_subset_of_mem_subtrees hxt (by simp)
          obtain rfl := hF.eq_of_mem ht ht' (hsub (by simp)) hx'
          exact Tree.labels_subset_of_mem_subtrees hxt (by simp)
        exact ⟨t, ht, inTree ha hat, inTree hc hct⟩
  obtain ⟨q, l, r, hq, hor⟩ := Forest.exists_parting hat hct hne
  have hqF : Tree.node q l r ∈ F.subtrees := Forest.mem_subtrees.2 ⟨t, ht, hq⟩
  obtain ⟨d, d', hd, hd', had, hcd, hunion⟩ : ∃ d d', Tree.HasChild d (.node q l r) ∧ Tree.HasChild d' (.node q l r) ∧
      a ∈ d.labels ∧ c ∈ d'.labels ∧ d.labels ∪ d'.labels = (Tree.node q l r).labels ∧
      Disjoint d.subtreeTerminals d'.subtreeTerminals := by
    have hv : (Tree.node q l r).Valid := hF.of_mem_subtrees hqF
    rcases hor with ⟨h₁, h₂⟩ | ⟨h₁, h₂⟩
    · exact ⟨l, r, Or.inl rfl, Or.inr rfl, h₁, h₂, rfl, hv.2.2.1⟩
    · exact ⟨r, l, Or.inr rfl, Or.inl rfl, h₁, h₂, Finset.union_comm _ _, hv.2.2.1.symm⟩
  obtain ⟨hunion, hdis⟩ := hunion
  have childMem : ∀ {e : Tree}, Tree.HasChild e (.node q l r) → e ∈ F.subtrees := by
    rintro e (rfl | rfl)
    · exact (Forest.mem_subtrees_children hqF).1
    · exact (Forest.mem_subtrees_children hqF).2
  have below : ∀ {p : Ptr} {x : Label} {m : Finset Label} {e : Tree}, Tree.leaf p x m ∈ F.subtrees →
      e ∈ F.subtrees → x ∈ e.labels → Tree.leaf p x m ∈ e.subtrees := fun hx he hxe =>
    Forest.mem_subtrees_of_subset hD hx he (by simpa using hxe)
  have hdl : Disjoint d.labels d'.labels :=
    hdis.mono (Tree.labels_subset_subtreeTerminals d) (Tree.labels_subset_subtreeTerminals d')
  have haM := below ha (childMem hd) had
  have hcM := below hc (childMem hd') hcd
  have hfuel : ∀ {e : Tree} {p : Ptr} {x : Label} {m : Finset Label}, e ∈ F.subtrees →
      e.labels.card < (Tree.leaf p x m).labels.card + F.subtrees.length := by
    intro e p x m he
    have := (Finset.card_le_card (Forest.subset_labels (Forest.labels_mem_clusters he))).trans Forest.card_labels_le
    rw [Tree.labels, Finset.card_singleton]
    omega
  have offA : ∀ p ∈ d.subtrees, decide ((Tree.leaf pc c mc).subtreeTerminals ⊆ p.subtreeTerminals) = false := by
    intro p hp
    refine decide_eq_false fun hsub => ?_
    have hcp : c ∈ d.subtreeTerminals := Tree.subtreeTerminals_subset_of_mem_subtrees hp (hsub (by simp))
    exact Finset.disjoint_left.1 hdis hcp (Tree.labels_subset_subtreeTerminals d' hcd)
  have offC : ∀ p ∈ d'.subtrees, decide (some p = some (Tree.node q l r)) = false := by
    intro p hp
    refine decide_eq_false fun he => ?_
    obtain rfl := Option.some.inj he
    refine Tree.not_labels_subset_child (hD.of_mem_subtrees hqF) (s := d') ?_ (Tree.labels_subset_of_mem_subtrees hp)
    rcases hd' with rfl | rfl
    · exact Or.inl (Tree.mem_subtrees_self _)
    · exact Or.inr (Tree.mem_subtrees_self _)
  obtain ⟨hA, hlca⟩ := climbed hD hqF hd (decide_eq_true (Tree.subtreeTerminals_subset_of_mem_subtrees
    (below hc hqF (hunion ▸ Finset.mem_union_right _ hcd)))) offA haM (hfuel (childMem hd))
  obtain ⟨hC, -⟩ := climbed hD hqF hd' (decide_eq_true rfl) offC hcM (hfuel (childMem hd'))
  unfold bNodesBetween
  dsimp only
  rw [hlca]
  refine ⟨fun b hb => (List.mem_append.1 hb).elim (hA.mem b) (hC.mem b), fun b hb => ?_,
    List.pairwise_append.2 ⟨(List.pairwise_cons.1 hA.apart).2, (List.pairwise_cons.1 hC.apart).2, ?_⟩, ?_⟩
  · rcases List.mem_append.1 hb with hb | hb
    · obtain ⟨P, hP, hsub, hPb, hd₀, hle⟩ := hA.pendant b hb
      refine ⟨Forest.labels_mem_clusters (hA.mem b hb), P, hP, hPb, hd₀, Or.inl ⟨hsub (by simp), fun h => ?_⟩⟩
      exact Finset.disjoint_left.1 hdl (hle h) hcd
    · obtain ⟨P, hP, hsub, hPb, hd₀, hle⟩ := hC.pendant b hb
      refine ⟨Forest.labels_mem_clusters (hC.mem b hb), P, hP, hPb, hd₀, Or.inr ⟨hsub (by simp), fun h => ?_⟩⟩
      exact Finset.disjoint_left.1 hdl had (hle h)
  · intro b hb b' hb'
    obtain ⟨P, -, -, -, -, hle⟩ := hA.pendant b hb
    obtain ⟨P', -, -, -, -, hle'⟩ := hC.pendant b' hb'
    exact hdl.mono (Finset.union_subset_right hle) (Finset.union_subset_right hle')
  · -- the terminals and what the climbs collect make up the two children
    have hall : ∀ A B : List Tree, ({a} ∪ Forest.labels A) ∪ ({c} ∪ Forest.labels B) =
        ({a, c} : Finset Label) ∪ Forest.labels (A ++ B) := by
      intro A B
      ext x
      simp only [Forest.mem_labels, List.mem_append, Finset.mem_union, Finset.mem_insert, Finset.mem_singleton,
        or_and_right, exists_or]
      exact or_or_or_comm
    rw [← hall]
    exact (congrArg₂ (· ∪ ·) hA.labels hC.labels).trans hunion ▸ Forest.labels_mem_clusters hqF

end Between

/-- **The list of an ABC rule**: for every forest, from number `i` on, in which `a` and
`c` are no siblings it names the subtrees between them. -/
inductive Collected (a c : Label) : ℕ → List Forest → List (ℕ × List Ptr) → Prop
  | nil (i : ℕ) : Collected a c i [] []
  | siblings {i : ℕ} {F : Forest} {Fs : List Forest} {bs : List (ℕ × List Ptr)} :
      {a, c} ∈ F.clusters → Collected a c (i + 1) Fs bs → Collected a c i (F :: Fs) bs
  | between {i : ℕ} {F : Forest} {Fs : List Forest} {B : List Tree} {bs : List (ℕ × List Ptr)} :
      PathNodes F a c B → Collected a c (i + 1) Fs bs →
        Collected a c i (F :: Fs) ((i, B.map Tree.ptr) :: bs)

/-- What one forest adds to the list. -/
def CollectedFrom (a c : Label) (i : ℕ) (F : Forest) (bs bs' : List (ℕ × List Ptr)) : Prop :=
  {a, c} ∈ F.clusters ∧ bs' = bs ∨ ∃ B, PathNodes F a c B ∧ bs' = bs ++ [(i, B.map Tree.ptr)]

/-- One forest and the rest are collected one after the other. -/
theorem CollectedFrom.cons {a c : Label} {i : ℕ} {F : Forest} {Fs : List Forest} {bs bs' rest : List (ℕ × List Ptr)}
    (h : CollectedFrom a c i F bs bs') (hrest : Collected a c (i + 1) Fs rest) :
    ∃ new, bs' ++ rest = bs ++ new ∧ Collected a c i (F :: Fs) new := by
  rcases h with ⟨hcl, rfl⟩ | ⟨B, hB, rfl⟩
  · exact ⟨rest, rfl, .siblings hcl hrest⟩
  · exact ⟨_, by rw [List.append_assoc]; rfl, .between hB hrest⟩

section Factory

variable {F : Forest} {a c x : Label} {pa pc : Ptr} {ma mc : Finset Label} {i : ℕ} {s s' : Flags}

/-- Assigning a label leaves the nodes alone. -/
theorem forestWithBNodes_assign {possible : Label} (h : s.assign possible = some s') :
    s'.forestWithBNodes = s.forestWithBNodes := by
  unfold Flags.assign at h
  split_ifs at h
  all_goals
    obtain rfl := Option.some.inj h
    rfl

/-- One node is collected. -/
theorem forestWithBNodes_oneBNode (b : Tree) :
    (oneBNode i b s).forestWithBNodes = s.forestWithBNodes ++ [(i, [b.ptr])] := by
  unfold oneBNode
  dsimp only
  split_ifs
  · rfl
  cases b.terminalToLabel with
  | none => rfl
  | some possible =>
      dsimp only
      cases hassign : Flags.assign { s with forestWithBNodes := s.forestWithBNodes ++ [(i, [b.ptr])] } possible with
      | none => rfl
      | some s' => exact forestWithBNodes_assign hassign

/-- Two nodes are collected. -/
theorem forestWithBNodes_twoBNodes (b b' : Tree) :
    (twoBNodes i b b' s).forestWithBNodes = s.forestWithBNodes ++ [(i, [b.ptr, b'.ptr])] := by
  unfold twoBNodes
  dsimp only
  split_ifs
  · rfl
  cases b.terminalToLabel with
  | none => rfl
  | some x =>
  cases b'.terminalToLabel with
  | none => rfl
  | some x' =>
      dsimp only
      cases hassign : Flags.assign { s with
          forestWithBNodes := s.forestWithBNodes ++ [(i, [b.ptr, b'.ptr])], bRule := false } x with
      | none => rfl
      | some s₁ =>
          dsimp only
          cases hassign' : s₁.assign x' with
          | none => exact forestWithBNodes_assign hassign
          | some s₂ => exact (forestWithBNodes_assign hassign').trans (forestWithBNodes_assign hassign)

/-- The check of the uncle leaves the nodes alone. -/
theorem forestWithBNodes_checkUncle {p q : Tree} (h : checkUncle a c x F p q s = some s') :
    s'.forestWithBNodes = s.forestWithBNodes := by
  have hrev : ∀ u : Tree, (checkReverseB F p q u a c s).forestWithBNodes = s.forestWithBNodes := by
    intro u
    unfold checkReverseB
    dsimp only
    split_ifs <;> rfl
  unfold checkUncle at h
  split_ifs at h
  · obtain rfl := Option.some.inj h
    rfl
  all_goals
    obtain ⟨u, -, rfl⟩ := Option.map_eq_some_iff.1 h
    dsimp only
    split_ifs
    all_goals first
      | rfl
      | exact hrev u

/-- **One round of `allRules`.** -/
theorem collectedFrom_checkForest (hF : F.Valid) (ha : .leaf pa a ma ∈ F.subtrees) (hc : .leaf pc c mc ∈ F.subtrees)
    (hne : a ≠ c) (h : checkForest a c x i F (.leaf pa a ma) (.leaf pc c mc) s = some (some s')) :
    CollectedFrom a c i F s.forestWithBNodes s'.forestWithBNodes := by
  unfold checkForest at h
  split_ifs at h with hsib hflags hcon
  · obtain rfl := Option.some.inj (Option.some.inj h)
    exact Or.inl ⟨cherry_of_sibling hF.distinct hsib, rfl⟩
  · obtain rfl := Option.some.inj (Option.some.inj h)
    exact Or.inl ⟨cherry_of_sibling hF.distinct hsib, rfl⟩
  · cases h
  · obtain ⟨s₁, hs₁, h⟩ := Option.map_eq_some_iff.1 h
    have hkeep : s₁.forestWithBNodes = s.forestWithBNodes :=
      forestWithBNodes_checkUncle (s := { s with equalPairRule := false }) hs₁
    cases hbn : checkBNodes F (.leaf pa a ma) (.leaf pc c mc) with
    | none =>
        rw [hbn] at h
        obtain rfl := Option.some.inj h
        have hcon' : F.connected (.leaf pa a ma) (.leaf pc c mc) = true := by simpa using hcon
        exact Or.inr ⟨_, pathNodes_bNodesBetween hF ha hc hne hcon', by rw [manyBNodes, hkeep]⟩
    | some b =>
        obtain ⟨b₁, b₂⟩ := b
        rw [hbn] at h
        obtain ⟨hB, hd⟩ := bNodes_of_checkBNodes hF.distinct hbn
        cases b₂ with
        | none =>
            obtain rfl := Option.some.inj h
            refine Or.inr ⟨[b₁], .of_bNodes hB rfl rfl (by simp), ?_⟩
            rw [forestWithBNodes_oneBNode, hkeep]
            rfl
        | some b₂ =>
            obtain rfl := Option.some.inj h
            refine Or.inr ⟨[b₁, b₂], .of_bNodes hB rfl rfl (by simpa using hd), ?_⟩
            rw [forestWithBNodes_twoBNodes, hkeep]
            rfl

/-- `checkForests` collects the nodes of all forests. -/
theorem collected_checkForests {fs : List Forest} (hfs : ∀ G ∈ fs, G.Valid ∧ a ∈ G.labels ∧ c ∈ G.labels) (hne : a ≠ c)
    (h : checkForests a c x i fs s = some (some s')) :
    ∃ new, s'.forestWithBNodes = s.forestWithBNodes ++ new ∧ Collected a c i fs new := by
  induction fs generalizing i s with
  | nil =>
      obtain rfl := Option.some.inj (Option.some.inj h)
      exact ⟨[], (List.append_nil _).symm, .nil i⟩
  | cons f fs ih =>
      obtain ⟨hf, haf, hcf⟩ := hfs f (List.mem_cons_self ..)
      obtain ⟨pa, ma, hna, ha⟩ := Forest.exists_labelToTerminal hf haf
      obtain ⟨pc, mc, hnc, hc⟩ := Forest.exists_labelToTerminal hf hcf
      unfold checkForests at h
      rw [hna, hnc] at h
      dsimp only at h
      split at h
      · cases h
      · cases h
      · rename_i s₁ hround
        obtain ⟨rest, hrest, hcol⟩ := ih (fun G hG => hfs G (List.mem_cons_of_mem _ hG)) h
        obtain ⟨new, hnew, hcol'⟩ := (collectedFrom_checkForest hf ha hc hne hround).cons hcol
        exact ⟨new, hrest.trans hnew, hcol'⟩

/-- `collectForests` collects the nodes of all forests. -/
theorem collected_collectForests {fs : List Forest} (hfs : ∀ G ∈ fs, G.Valid ∧ a ∈ G.labels ∧ c ∈ G.labels)
    (hne : a ≠ c) {siblings siblings' : Bool} {bs bs' : List (ℕ × List Ptr)}
    (h : collectForests a c i fs siblings bs = some (some (siblings', bs'))) :
    ∃ new, bs' = bs ++ new ∧ Collected a c i fs new ∧
      (siblings' = true → siblings = true ∧ ∀ F ∈ fs, {a, c} ∈ F.clusters) := by
  induction fs generalizing i siblings bs with
  | nil =>
      obtain ⟨rfl, rfl⟩ := Prod.mk.inj (Option.some.inj (Option.some.inj h))
      exact ⟨[], (List.append_nil _).symm, .nil i, fun h => ⟨h, by simp⟩⟩
  | cons f fs ih =>
      obtain ⟨hf, haf, hcf⟩ := hfs f (List.mem_cons_self ..)
      obtain ⟨pa, ma, hna, ha⟩ := Forest.exists_labelToTerminal hf haf
      obtain ⟨pc, mc, hnc, hc⟩ := Forest.exists_labelToTerminal hf hcf
      have ih := fun {i siblings bs} => @ih i (fun G hG => hfs G (List.mem_cons_of_mem _ hG)) siblings bs
      unfold collectForests at h
      rw [hna, hnc] at h
      dsimp only at h
      split_ifs at h with hsib hcon
      · have hcherry := cherry_of_sibling hf.distinct hsib
        obtain ⟨rest, hrest, hcol, hall⟩ := ih h
        exact ⟨rest, hrest, .siblings hcherry hcol, fun hs =>
          ⟨(hall hs).1, List.forall_mem_cons.2 ⟨hcherry, (hall hs).2⟩⟩⟩
      · cases h
      · have hcon' : f.connected (.leaf pa a ma) (.leaf pc c mc) = true := by simpa using hcon
        obtain ⟨rest, hrest, hcol, hall⟩ := ih h
        refine ⟨_, by rw [hrest, List.append_assoc]; rfl,
          .between (pathNodes_bNodesBetween hf ha hc hne hcon') hcol, fun hs => absurd (hall hs).1 Bool.false_ne_true⟩

/-- **The ABC rule of `allRules`.** -/
theorem collected_of_allRules {order : List Label} {f0 : Forest} {fs : List Forest} {S : Finset Label}
    (hI : ∀ F ∈ f0 :: fs, F.Valid ∧ F.labels = S) {bs : List (ℕ × List Ptr)}
    (h : allRules order (f0 :: fs) = some (some (.abcBranching a c bs))) :
    a ∈ S ∧ c ∈ S ∧ a ≠ c ∧ Collected a c 0 (f0 :: fs) bs := by
  obtain ⟨hf0, hlab⟩ := hI f0 (List.mem_cons_self ..)
  unfold allRules at h
  dsimp only at h
  cases hsib : getSiblings order f0 with
  | none => rw [hsib] at h; cases h
  | some pair =>
      obtain ⟨a', c'⟩ := pair
      rw [hsib] at h
      dsimp only at h
      have hp := pair_of_getSiblings hf0 hsib
      split at h
      · cases h
      · cases h
      · rename_i s hrun
        have hdecide := Option.some.inj (Option.some.inj h)
        unfold decideRule at hdecide
        split_ifs at hdecide
        all_goals
          obtain ⟨rfl, rfl, rfl⟩ := Rule.abcBranching.inj hdecide
          obtain ⟨new, hnew, hcol⟩ := collected_checkForests (fun G hG => by
            obtain ⟨hG', hlabG⟩ := hI G (List.mem_cons_of_mem _ hG)
            rw [hlabG, ← hlab]
            exact ⟨hG', hp.left, hp.right⟩) hp.ne hrun
          rw [hnew]
          exact ⟨hlab ▸ hp.left, hlab ▸ hp.right, hp.ne, .siblings hp.cherry hcol⟩

/-- **The rules of `basicRules`.** -/
theorem collected_of_basicRules {order : List Label} {f0 : Forest} {fs : List Forest} {S : Finset Label}
    (hI : ∀ F ∈ f0 :: fs, F.Valid ∧ F.labels = S) {rule : Rule}
    (h : basicRules order (f0 :: fs) = some (some rule)) :
    ∃ a c, a ∈ S ∧ c ∈ S ∧ a ≠ c ∧ (rule = .acBranching a c ∨
      rule = .equalPairReduction a c ∧ (∀ F ∈ f0 :: fs, {a, c} ∈ F.clusters) ∨
      ∃ bs, rule = .abcBranching a c bs ∧ Collected a c 0 (f0 :: fs) bs) := by
  obtain ⟨hf0, hlab⟩ := hI f0 (List.mem_cons_self ..)
  unfold basicRules at h
  dsimp only at h
  cases hsib : getSiblings order f0 with
  | none => rw [hsib] at h; cases h
  | some pair =>
      obtain ⟨a, c⟩ := pair
      rw [hsib] at h
      dsimp only at h
      have hp := pair_of_getSiblings hf0 hsib
      refine ⟨a, c, hlab ▸ hp.left, hlab ▸ hp.right, hp.ne, ?_⟩
      split at h
      · cases h
      · exact Or.inl (Option.some.inj (Option.some.inj h)).symm
      · rename_i siblings bs hrun
        refine Or.inr ?_
        obtain ⟨new, rfl, hcol, hall⟩ := collected_collectForests (fun G hG => by
          obtain ⟨hG', hlabG⟩ := hI G (List.mem_cons_of_mem _ hG)
          rw [hlabG, ← hlab]
          exact ⟨hG', hp.left, hp.right⟩) hp.ne hrun
        have hrule := Option.some.inj (Option.some.inj h)
        split_ifs at hrule with hs
        · exact Or.inl ⟨hrule.symm, List.forall_mem_cons.2 ⟨hp.cherry, (hall hs).2⟩⟩
        · exact Or.inr ⟨_, hrule.symm, .siblings hp.cherry hcol⟩

end Factory

end Maf
