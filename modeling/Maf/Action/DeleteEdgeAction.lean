/-
# Cutting an edge

`src/Solver/Action/DeleteEdgeAction.cpp`.  `doAction` detaches a node from its
parent; the sibling takes the parent's place, the children above are sorted
again, and the detached subtree becomes a tree of its own (`Forest.deleteEdge`).

For the agreement forests only the clusters matter: the edge above the node is
cut in the sense of `cutAt` (`clusters_deleteEdge`), and a valid forest stays
valid (`Valid.deleteEdge`).
-/

import Maf.Forest

namespace Maf
namespace Tree

/-- A node with its children sorted. -/
def sortedNode (p : Ptr) (l r : Tree) : Tree :=
  if r.least < l.least then node p r l else node p l r

/-- The tree without the subtree `c`, in whose parent's place its sibling stands. -/
def detach : Tree → Tree → Option Tree
  | leaf .., _ => none
  | node p l r, c =>
      if l = c then some r
      else if r = c then some l
      else
        match l.detach c with
        | some l' => some (sortedNode p l' r)
        | none => (r.detach c).map (sortedNode p l)

/-- Sorting the children keeps the labels. -/
theorem labels_sortedNode (p : Ptr) (l r : Tree) :
    (sortedNode p l r).labels = l.labels ∪ r.labels := by
  unfold sortedNode
  split_ifs
  · exact Finset.union_comm _ _
  · rfl

/-- Sorting the children keeps the terminals. -/
theorem subtreeTerminals_sortedNode (p : Ptr) (l r : Tree) :
    (sortedNode p l r).subtreeTerminals = l.subtreeTerminals ∪ r.subtreeTerminals := by
  unfold sortedNode
  split_ifs
  · exact Finset.union_comm _ _
  · rfl

/-- Sorting the children keeps the clusters. -/
theorem clusters_sortedNode (p : Ptr) (l r : Tree) :
    (sortedNode p l r).clusters = insert (l.labels ∪ r.labels) (l.clusters ∪ r.clusters) := by
  unfold sortedNode
  split_ifs
  · rw [clusters, Finset.union_comm r.labels, Finset.union_comm r.clusters]
  · rfl

/-- Sorting the children keeps the least label. -/
theorem least_sortedNode (p : Ptr) (l r : Tree) :
    (sortedNode p l r).least = min l.least r.least := by
  unfold sortedNode
  split_ifs
  · exact min_comm _ _
  · rfl

/-- Sorting the children keeps the nodes, up to their order. -/
theorem ptrs_sortedNode (p : Ptr) (l r : Tree) :
    (sortedNode p l r).ptrs.Perm (p :: (l.ptrs ++ r.ptrs)) := by
  unfold sortedNode
  split_ifs
  · exact (List.perm_append_comm).cons p
  · exact List.Perm.refl _

/-- Two valid trees without common terminals are put together to a valid one. -/
theorem Valid.sortedNode {p : Ptr} {l r : Tree} (hl : l.Valid) (hr : r.Valid)
    (hd : Disjoint l.subtreeTerminals r.subtreeTerminals) : (sortedNode p l r).Valid := by
  unfold Tree.sortedNode
  split_ifs with h
  · exact ⟨hr, hl, hd.symm, h⟩
  · refine ⟨hl, hr, hd, lt_of_le_of_ne (not_lt.1 h) fun he => ?_⟩
    refine Finset.disjoint_left.1 hd (labels_subset_subtreeTerminals l l.least_mem_labels) ?_
    exact he ▸ labels_subset_subtreeTerminals r r.least_mem_labels

/-- Only a proper subtree can be detached. -/
theorem mem_subtrees_of_detach {c t rest : Tree} (h : t.detach c = some rest) :
    c ∈ t.subtrees ∧ c ≠ t := by
  induction t generalizing rest with
  | leaf => cases h
  | node p l r ihl ihr =>
      have hlt : ∀ {u : Tree}, u ∈ l.subtrees ∨ u ∈ r.subtrees → u ≠ node p l r := by
        rintro u hu rfl
        have size : ∀ {s t : Tree}, s ∈ t.subtrees → sizeOf s ≤ sizeOf t := by
          intro s t hs
          induction t with
          | leaf => rw [List.mem_singleton.1 hs]
          | node p l r ihl ihr =>
              have hnode : sizeOf (node p l r) = 1 + p + sizeOf l + sizeOf r := rfl
              rcases mem_subtrees_node.1 hs with rfl | hs | hs
              · exact le_rfl
              · have := ihl hs; omega
              · have := ihr hs; omega
        have hnode : sizeOf (node p l r) = 1 + p + sizeOf l + sizeOf r := rfl
        rcases hu with hu | hu <;> have := size hu <;> omega
      have key : c ∈ l.subtrees ∨ c ∈ r.subtrees := by
        unfold detach at h
        split_ifs at h with hl hr
        · exact Or.inl (hl ▸ mem_subtrees_self _)
        · exact Or.inr (hr ▸ mem_subtrees_self _)
        · cases hd : l.detach c with
          | some l' => exact Or.inl (ihl hd).1
          | none =>
              rw [hd] at h
              obtain ⟨r', hr', -⟩ := Option.map_eq_some_iff.1 h
              exact Or.inr (ihr hr').1
      exact ⟨mem_subtrees_node.2 (Or.inr key), hlt key⟩

/-- A proper subtree can be detached. -/
theorem exists_detach {c t : Tree} (h : c ∈ t.subtrees) (hne : c ≠ t) :
    ∃ rest, t.detach c = some rest := by
  induction t with
  | leaf => exact absurd (List.mem_singleton.1 h) hne
  | node p l r ihl ihr =>
      unfold detach
      split_ifs with hl hr
      · exact ⟨r, rfl⟩
      · exact ⟨l, rfl⟩
      · cases hd : l.detach c with
        | some l' => exact ⟨_, rfl⟩
        | none =>
            rcases (mem_subtrees_node.1 h).resolve_left hne with h | h
            · obtain ⟨l', hl'⟩ := ihl h (Ne.symm hl)
              rw [hd] at hl'
              cases hl'
            · obtain ⟨r', hr'⟩ := ihr h (Ne.symm hr)
              exact ⟨_, by rw [hr']; rfl⟩

/-- **What detaching a subtree leaves.** -/
theorem detach_spec {c t rest : Tree} (ht : t.Valid) (h : t.detach c = some rest) :
    rest.Valid ∧ rest.subtreeTerminals = t.subtreeTerminals \ c.subtreeTerminals ∧
      rest.labels = t.labels \ c.labels ∧ rest.clusters ∪ c.clusters = cutAt c.labels t.clusters := by
  induction t generalizing rest with
  | leaf => cases h
  | node p l r ihl ihr =>
      obtain ⟨hl, hr, hd, -⟩ := ht
      have hdl : Disjoint l.labels r.labels :=
        hd.mono (labels_subset_subtreeTerminals l) (labels_subset_subtreeTerminals r)
      -- clusters apart from `c` do not change
      have apart : ∀ {u : Tree}, Disjoint c.labels u.labels → cutAt c.labels u.clusters = u.clusters := by
        intro u hdis
        ext X
        rw [mem_cutAt]
        have hno : ∀ {X}, X ∈ u.clusters → ¬c.labels ⊂ X := by
          intro X hX hss
          obtain ⟨x, hx⟩ := c.labels_nonempty
          exact Finset.disjoint_left.1 hdis hx (subset_labels hX (hss.1 hx))
        constructor
        · rintro (⟨Y, hY, hss, -⟩ | ⟨hX, -⟩)
          · exact absurd hss (hno hY)
          · exact hX
        · exact fun hX => Or.inr ⟨hX, hno hX⟩
      have self : cutAt c.labels c.clusters = c.clusters := by
        ext X
        rw [mem_cutAt]
        constructor
        · rintro (⟨Y, hY, hss, -⟩ | ⟨hX, -⟩)
          · exact absurd (subset_labels hY) hss.2
          · exact hX
        · exact fun hX => Or.inr ⟨hX, fun hss => hss.2 (subset_labels hX)⟩
      have insertCut : ∀ {X : Finset Label} {C : Finset (Finset Label)}, c.labels ⊂ X →
          cutAt c.labels (insert X C) = insert (X \ c.labels) (cutAt c.labels C) := by
        intro X C hss
        rw [cutAt, Finset.image_insert, if_pos hss]
        rfl
      have unionCut : ∀ {C D : Finset (Finset Label)},
          cutAt c.labels (C ∪ D) = cutAt c.labels C ∪ cutAt c.labels D := fun {C D} =>
        Finset.image_union C D
      unfold detach at h
      split_ifs at h with hlc hrc
      · -- the left child is detached
        obtain rfl := Option.some.inj h
        subst hlc
        have hss : l.labels ⊂ l.labels ∪ r.labels := by
          refine ⟨Finset.subset_union_left, fun hs => ?_⟩
          obtain ⟨x, hx⟩ := r.labels_nonempty
          exact Finset.disjoint_left.1 hdl (hs (Finset.mem_union_right _ hx)) hx
        refine ⟨hr, ?_, ?_, ?_⟩
        · exact (Finset.union_sdiff_cancel_left hd).symm
        · exact (Finset.union_sdiff_cancel_left hdl).symm
        · rw [clusters, insertCut hss, unionCut, self, apart hdl, Finset.union_sdiff_cancel_left hdl,
            Finset.insert_eq_of_mem (Finset.mem_union_right _ r.labels_mem_clusters),
            Finset.union_comm]
      · -- the right child is detached
        obtain rfl := Option.some.inj h
        subst hrc
        have hss : r.labels ⊂ l.labels ∪ r.labels := by
          refine ⟨Finset.subset_union_right, fun hs => ?_⟩
          obtain ⟨x, hx⟩ := l.labels_nonempty
          exact Finset.disjoint_left.1 hdl hx (hs (Finset.mem_union_left _ hx))
        refine ⟨hl, ?_, ?_, ?_⟩
        · exact (Finset.union_sdiff_cancel_right hd).symm
        · exact (Finset.union_sdiff_cancel_right hdl).symm
        · rw [clusters, insertCut hss, unionCut, self, apart hdl.symm,
            Finset.union_sdiff_cancel_right hdl,
            Finset.insert_eq_of_mem (Finset.mem_union_left _ l.labels_mem_clusters)]
      · cases hdet : l.detach c with
        | some l' =>
            rw [hdet] at h
            obtain rfl := Option.some.inj h
            obtain ⟨hval, hterm, hlab, hcl⟩ := ihl hl hdet
            obtain ⟨hmem, hne⟩ := mem_subtrees_of_detach hdet
            have hcl₀ := labels_subset_of_mem_subtrees hmem
            have hct := subtreeTerminals_subset_of_mem_subtrees hmem
            have hss : c.labels ⊂ l.labels ∪ r.labels := by
              refine ⟨hcl₀.trans Finset.subset_union_left, fun hs => ?_⟩
              obtain ⟨x, hx⟩ := r.labels_nonempty
              exact Finset.disjoint_left.1 hdl (hcl₀ (hs (Finset.mem_union_right _ hx))) hx
            have hunion : (l.labels ∪ r.labels) \ c.labels = l.labels \ c.labels ∪ r.labels := by
              rw [Finset.union_sdiff_distrib, Finset.sdiff_eq_self_of_disjoint (hdl.symm.mono_right hcl₀)]
            refine ⟨hval.sortedNode hr (hd.mono_left (hterm ▸ Finset.sdiff_subset)), ?_, ?_, ?_⟩
            · rw [subtreeTerminals_sortedNode, hterm, subtreeTerminals, Finset.union_sdiff_distrib,
                Finset.sdiff_eq_self_of_disjoint (hd.symm.mono_right hct)]
            · rw [labels_sortedNode, hlab, labels, hunion]
            · rw [clusters_sortedNode, clusters, insertCut hss, unionCut, apart (hdl.mono_left hcl₀),
                ← hcl, hlab, hunion, Finset.insert_union, Finset.union_right_comm]
        | none =>
            rw [hdet] at h
            obtain ⟨r', hdet', rfl⟩ := Option.map_eq_some_iff.1 h
            obtain ⟨hval, hterm, hlab, hcl⟩ := ihr hr hdet'
            obtain ⟨hmem, hne⟩ := mem_subtrees_of_detach hdet'
            have hcl₀ := labels_subset_of_mem_subtrees hmem
            have hct := subtreeTerminals_subset_of_mem_subtrees hmem
            have hss : c.labels ⊂ l.labels ∪ r.labels := by
              refine ⟨hcl₀.trans Finset.subset_union_right, fun hs => ?_⟩
              obtain ⟨x, hx⟩ := l.labels_nonempty
              exact Finset.disjoint_left.1 hdl hx (hcl₀ (hs (Finset.mem_union_left _ hx)))
            have hunion : (l.labels ∪ r.labels) \ c.labels = l.labels ∪ r.labels \ c.labels := by
              rw [Finset.union_sdiff_distrib, Finset.sdiff_eq_self_of_disjoint (hdl.mono_right hcl₀)]
            refine ⟨hl.sortedNode hval (hd.mono_right (hterm ▸ Finset.sdiff_subset)), ?_, ?_, ?_⟩
            · rw [subtreeTerminals_sortedNode, hterm, subtreeTerminals, Finset.union_sdiff_distrib,
                Finset.sdiff_eq_self_of_disjoint (hd.mono_right hct)]
            · rw [labels_sortedNode, hlab, labels, hunion]
            · rw [clusters_sortedNode, clusters, insertCut hss, unionCut,
                apart (hdl.symm.mono_left hcl₀), ← hcl, hlab, hunion, Finset.insert_union,
                Finset.union_assoc]

/-- The subtrees of a node with sorted children. -/
theorem mem_subtrees_sortedNode {p : Ptr} {l r s : Tree} :
    s ∈ (Tree.sortedNode p l r).subtrees ↔ s = Tree.sortedNode p l r ∨ s ∈ l.subtrees ∨ s ∈ r.subtrees := by
  unfold Tree.sortedNode
  split_ifs
  · rw [mem_subtrees_node, or_comm (a := s ∈ l.subtrees)]
  · rw [mem_subtrees_node]

/-- A terminal is not an inner node. -/
theorem leaf_mem_sortedNode {p q : Ptr} {x : Label} {m : Finset Label} {l r : Tree} :
    leaf q x m ∈ (Tree.sortedNode p l r).subtrees ↔ leaf q x m ∈ l.subtrees ∨ leaf q x m ∈ r.subtrees := by
  rw [mem_subtrees_sortedNode]
  refine or_iff_right fun he => ?_
  unfold Tree.sortedNode at he
  split_ifs at he

/-- Sorting the children does not move the node. -/
theorem ptr_sortedNode (p : Ptr) (l r : Tree) : (Tree.sortedNode p l r).ptr = p := by
  unfold Tree.sortedNode
  split_ifs <;> rfl

/-- **The nodes that stay keep their labels** apart from those detached. -/
theorem exists_of_mem_detach {c t rest s : Tree} (ht : t.Valid) (h : t.detach c = some rest)
    (hs : s ∈ rest.subtrees) : ∃ u ∈ t.subtrees, u.ptr = s.ptr ∧ s.labels = u.labels \ c.labels := by
  induction t generalizing rest with
  | leaf => cases h
  | node p l r ihl ihr =>
      have hd := ht.distinct.2.2
      have ⟨hl, hr, _, _⟩ := ht
      have left : ∀ {u}, u ∈ l.subtrees → u ∈ (node p l r).subtrees := fun h =>
        mem_subtrees_node.2 (Or.inr (Or.inl h))
      have right : ∀ {u}, u ∈ r.subtrees → u ∈ (node p l r).subtrees := fun h =>
        mem_subtrees_node.2 (Or.inr (Or.inr h))
      have apart : ∀ {u v : Tree}, v ∈ l.subtrees ∧ u ∈ r.subtrees ∨ v ∈ r.subtrees ∧ u ∈ l.subtrees →
          u.labels = u.labels \ v.labels := by
        intro u v huv
        refine (Finset.sdiff_eq_self_of_disjoint ?_).symm
        rcases huv with ⟨hv, hu⟩ | ⟨hv, hu⟩
        · exact hd.symm.mono (labels_subset_of_mem_subtrees hu) (labels_subset_of_mem_subtrees hv)
        · exact hd.mono (labels_subset_of_mem_subtrees hu) (labels_subset_of_mem_subtrees hv)
      have hspec := (detach_spec ht h).2.2.1
      unfold detach at h
      split_ifs at h with hlc hrc
      · obtain rfl := Option.some.inj h
        exact ⟨s, right hs, rfl, apart (Or.inl ⟨hlc ▸ mem_subtrees_self _, hs⟩)⟩
      · obtain rfl := Option.some.inj h
        exact ⟨s, left hs, rfl, apart (Or.inr ⟨hrc ▸ mem_subtrees_self _, hs⟩)⟩
      · cases hdet : l.detach c with
        | some l' =>
            rw [hdet] at h
            obtain rfl := Option.some.inj h
            rcases mem_subtrees_sortedNode.1 hs with rfl | hs | hs
            · exact ⟨_, mem_subtrees_self _, (ptr_sortedNode ..).symm, hspec⟩
            · obtain ⟨u, hu, hptr, hlab⟩ := ihl hl hdet hs
              exact ⟨u, left hu, hptr, hlab⟩
            · exact ⟨s, right hs, rfl, apart (Or.inl ⟨(mem_subtrees_of_detach hdet).1, hs⟩)⟩
        | none =>
            rw [hdet] at h
            obtain ⟨r', hdet', rfl⟩ := Option.map_eq_some_iff.1 h
            rcases mem_subtrees_sortedNode.1 hs with rfl | hs | hs
            · exact ⟨_, mem_subtrees_self _, (ptr_sortedNode ..).symm, hspec⟩
            · exact ⟨s, left hs, rfl, apart (Or.inr ⟨(mem_subtrees_of_detach hdet').1, hs⟩)⟩
            · obtain ⟨u, hu, hptr, hlab⟩ := ihr hr hdet' hs
              exact ⟨u, right hu, hptr, hlab⟩

/-- **All nodes stay but the parent** of the detached one. -/
theorem ptrs_detach {c t rest : Tree} (h : t.detach c = some rest) :
    ∃ p l r, node p l r ∈ t.subtrees ∧ (l = c ∨ r = c) ∧ (p :: (rest.ptrs ++ c.ptrs)).Perm t.ptrs := by
  induction t generalizing rest with
  | leaf => cases h
  | node p l r ihl ihr =>
      unfold detach at h
      split_ifs at h with hlc hrc
      · obtain rfl := Option.some.inj h
        subst hlc
        exact ⟨p, _, _, mem_subtrees_self _, Or.inl rfl, List.perm_append_comm.cons p⟩
      · obtain rfl := Option.some.inj h
        subst hrc
        exact ⟨p, _, _, mem_subtrees_self _, Or.inr rfl, List.Perm.refl _⟩
      · cases hdet : l.detach c with
        | some l' =>
            rw [hdet] at h
            obtain rfl := Option.some.inj h
            obtain ⟨q, l₁, r₁, hmem, hc, hperm⟩ := ihl hdet
            refine ⟨q, l₁, r₁, mem_subtrees_node.2 (Or.inr (Or.inl hmem)), hc, ?_⟩
            refine List.Perm.trans ?_ ((hperm.append_right r.ptrs).cons p)
            refine List.Perm.trans (((ptrs_sortedNode p l' r).append_right c.ptrs).cons q) ?_
            simp only [List.cons_append, List.append_assoc]
            refine (List.Perm.swap p q _).trans ?_
            exact ((List.perm_append_comm.append_left l'.ptrs).cons q).cons p
        | none =>
            rw [hdet] at h
            obtain ⟨r', hdet', rfl⟩ := Option.map_eq_some_iff.1 h
            obtain ⟨q, l₁, r₁, hmem, hc, hperm⟩ := ihr hdet'
            refine ⟨q, l₁, r₁, mem_subtrees_node.2 (Or.inr (Or.inr hmem)), hc, ?_⟩
            refine List.Perm.trans ?_ ((hperm.append_left l.ptrs).cons p)
            refine List.Perm.trans (((ptrs_sortedNode p l r').append_right c.ptrs).cons q) ?_
            simp only [List.cons_append, List.append_assoc]
            refine (List.Perm.swap p q _).trans ?_
            exact (List.perm_middle.symm).cons p

/-- **What detaching leaves is the tree on the remaining labels.** -/
theorem clusters_detach {c t rest : Tree} (ht : t.Valid) (h : t.detach c = some rest) :
    rest.clusters = trace t.clusters (t.labels \ c.labels) := by
  obtain ⟨-, -, hlab, hcl⟩ := detach_spec ht h
  have hct := (mem_subtrees_of_detach h).1
  have hcm : c.labels ∈ t.clusters := mem_clusters_iff.2 ⟨c, hct, rfl⟩
  -- away from `c` the clusters are those after the cut
  have hcut : ∀ {X : Finset Label}, X.Nonempty → Disjoint X c.labels →
      (X ∈ rest.clusters ↔ X ∈ cutAt c.labels t.clusters) := by
    intro X hX hd
    rw [← hcl, Finset.mem_union, or_iff_left]
    intro hXc
    obtain ⟨x, hx⟩ := hX
    exact Finset.disjoint_left.1 hd hx (subset_labels hXc hx)
  have hinter : ∀ {Y : Finset Label}, Y ∈ t.clusters → Y ∩ (t.labels \ c.labels) = Y \ c.labels := by
    intro Y hY
    rw [← Finset.inter_sdiff_assoc, Finset.inter_eq_left.2 (subset_labels hY)]
  ext X
  rw [mem_trace]
  constructor
  · intro hX
    have hne := cluster_nonempty hX
    have hsub := hlab ▸ subset_labels hX
    have hd : Disjoint X c.labels := Finset.disjoint_of_subset_left hsub Finset.sdiff_disjoint
    refine ⟨hne, ?_⟩
    rcases mem_cutAt.1 ((hcut hne hd).1 hX) with ⟨Y, hY, -, hYX⟩ | ⟨hX, -⟩
    · exact ⟨Y, hY, (hinter hY).trans hYX⟩
    · exact ⟨X, hX, Finset.inter_eq_left.2 hsub⟩
  · rintro ⟨hne, Y, hY, rfl⟩
    rw [hinter hY] at hne ⊢
    refine (hcut hne Finset.sdiff_disjoint).2 (mem_cutAt.2 ?_)
    by_cases hss : c.labels ⊂ Y
    · exact Or.inl ⟨Y, hY, hss, rfl⟩
    · refine Or.inr ?_
      have hYc : Disjoint Y c.labels := by
        rcases (hierarchy ht.distinct).nested Y hY _ hcm with hs | hs | hd
        · rw [Finset.sdiff_eq_empty_iff_subset.2 hs] at hne
          exact absurd hne Finset.not_nonempty_empty
        · rcases hs.eq_or_ssubset with he | hs
          · rw [he, Finset.sdiff_self] at hne
            exact absurd hne Finset.not_nonempty_empty
          · exact absurd hs hss
        · exact hd
      rw [Finset.sdiff_eq_self_of_disjoint hYc]
      exact ⟨hY, hss⟩

/-- **A subtree apart from the detached one stays.** -/
theorem mem_subtrees_detach {c t rest u : Tree} (h : t.detach c = some rest) (hu : u ∈ t.subtrees)
    (hd : Disjoint u.labels c.labels) : u ∈ rest.subtrees := by
  have hout : ∀ {s : Tree}, c ∈ s.subtrees → u ≠ s := by
    rintro s hc rfl
    obtain ⟨x, hx⟩ := c.labels_nonempty
    exact Finset.disjoint_right.1 hd hx (labels_subset_of_mem_subtrees hc hx)
  have hin : u ∉ c.subtrees := by
    intro hc
    obtain ⟨x, hx⟩ := u.labels_nonempty
    exact Finset.disjoint_left.1 hd hx (labels_subset_of_mem_subtrees hc hx)
  induction t generalizing rest with
  | leaf => cases h
  | node p l r ihl ihr =>
      have hne := hout (mem_subtrees_of_detach h).1
      have hu' := (mem_subtrees_node.1 hu).resolve_left hne
      unfold detach at h
      split_ifs at h with hlc hrc
      · obtain rfl := Option.some.inj h
        exact hu'.resolve_left fun hl => hin (hlc ▸ hl)
      · obtain rfl := Option.some.inj h
        exact hu'.resolve_right fun hr => hin (hrc ▸ hr)
      · cases hdet : l.detach c with
        | some l' =>
            rw [hdet] at h
            obtain rfl := Option.some.inj h
            exact mem_subtrees_sortedNode.2 (Or.inr (hu'.imp_left (ihl hdet)))
        | none =>
            rw [hdet] at h
            obtain ⟨r', hdet', rfl⟩ := Option.map_eq_some_iff.1 h
            exact mem_subtrees_sortedNode.2 (Or.inr (hu'.imp_right (ihr hdet')))

/-- Detaching makes no new terminal. -/
theorem leaf_mem_of_detach {c t rest : Tree} (h : t.detach c = some rest) {q : Ptr} {x : Label} {m : Finset Label}
    (hx : leaf q x m ∈ rest.subtrees) : leaf q x m ∈ t.subtrees := by
  induction t generalizing rest with
  | leaf => cases h
  | node p l r ihl ihr =>
      unfold detach at h
      split_ifs at h with hlc hrc
      · obtain rfl := Option.some.inj h
        exact mem_subtrees_node.2 (Or.inr (Or.inr hx))
      · obtain rfl := Option.some.inj h
        exact mem_subtrees_node.2 (Or.inr (Or.inl hx))
      · cases hdet : l.detach c with
        | some l' =>
            rw [hdet] at h
            obtain rfl := Option.some.inj h
            exact mem_subtrees_node.2 (Or.inr ((leaf_mem_sortedNode.1 hx).imp_left (ihl hdet)))
        | none =>
            rw [hdet] at h
            obtain ⟨r', hdet', rfl⟩ := Option.map_eq_some_iff.1 h
            exact mem_subtrees_node.2 (Or.inr ((leaf_mem_sortedNode.1 hx).imp_right (ihr hdet')))

/-- The smallest label stays in one of the two parts. -/
theorem least_detach {c t rest : Tree} (ht : t.Valid) (h : t.detach c = some rest) :
    min rest.least c.least = t.least := by
  obtain ⟨hval, hterm, hlab, -⟩ := detach_spec ht h
  obtain ⟨hmem, -⟩ := mem_subtrees_of_detach h
  have hc : t.least ≤ c.least := ht.least_le (labels_subset_subtreeTerminals t
    (labels_subset_of_mem_subtrees hmem c.least_mem_labels))
  have hr : t.least ≤ rest.least := ht.least_le (labels_subset_subtreeTerminals t
    (Finset.sdiff_subset (hlab ▸ rest.least_mem_labels)))
  refine le_antisymm ?_ (le_min hr hc)
  by_cases hmem' : t.least ∈ c.labels
  · exact (min_le_right _ _).trans
      ((ht.of_mem_subtrees hmem).least_le (labels_subset_subtreeTerminals c hmem'))
  · refine (min_le_left _ _).trans (hval.least_le (labels_subset_subtreeTerminals rest ?_))
    exact hlab ▸ Finset.mem_sdiff.2 ⟨t.least_mem_labels, hmem'⟩

end Tree

namespace Forest

/-- Inserts a tree before the first one whose smallest label is not smaller. -/
def insertRoot (r : Tree) : Forest → Forest
  | [] => [r]
  | t :: F => if t.least < r.least then t :: insertRoot r F else r :: t :: F

/-- `DeleteEdgeAction::doAction` for the node `child`; `none` when it has no
parent. -/
def deleteEdge (child : Tree) : Forest → Option Forest
  | [] => none
  | t :: F =>
      match t.detach child with
      | none => (deleteEdge child F).map (t :: ·)
      | some rest =>
          match t with
          | .node _ l r =>
              -- the parent is a root: its children take its place
              if l = child ∨ r = child then some (insertRoot r (l :: F))
              else if rest.least < child.least then some (insertRoot child (rest :: F))
              else some (insertRoot rest (child :: F))
          | .leaf .. => none

/-- A new root is one more tree. -/
theorem perm_insertRoot (r : Tree) (F : Forest) : (insertRoot r F).Perm (r :: F) := by
  induction F with
  | nil => exact List.Perm.refl _
  | cons t F ih =>
      unfold insertRoot
      split_ifs
      · exact (ih.cons t).trans (List.Perm.swap r t F)
      · exact List.Perm.refl _

/-- A new root is sorted in among the others. -/
theorem sorted_insertRoot {r : Tree} {F : Forest} (hF : F.Pairwise fun t u => t.least < u.least)
    (hr : ∀ t ∈ F, t.least ≠ r.least) :
    (insertRoot r F).Pairwise fun t u => t.least < u.least := by
  induction F with
  | nil => simp [insertRoot]
  | cons t F ih =>
      rw [List.pairwise_cons] at hF
      unfold insertRoot
      split_ifs with h
      · rw [List.pairwise_cons]
        refine ⟨fun u hu => ?_, ih hF.2 fun u hu => hr u (by simp [hu])⟩
        rcases List.mem_cons.1 ((perm_insertRoot r F).subset hu) with rfl | hu
        · exact h
        · exact hF.1 u hu
      · have hlt : r.least < t.least := lt_of_le_of_ne (not_lt.1 h) (hr t (by simp)).symm
        rw [List.pairwise_cons, List.pairwise_cons]
        refine ⟨fun u hu => ?_, hF⟩
        rcases List.mem_cons.1 hu with rfl | hu
        · exact hlt
        · exact hlt.trans (hF.1 u hu)

/-- **What cutting an edge does to the list of trees**: the tree of the node is
replaced by the node and the rest. -/
theorem deleteEdge_spec {F F' : Forest} (hF : F.Valid) {child : Tree}
    (h : F.deleteEdge child = some F') :
    ∃ t ∈ F, ∃ rest, t.detach child = some rest ∧ (t :: F').Perm (rest :: child :: F) ∧
      F'.Pairwise fun t u => t.least < u.least := by
  have htree := hF.tree
  have hsort := hF.sorted
  have hdis := hF.disjoint
  clear hF
  induction F generalizing F' with
  | nil => cases h
  | cons t F ih =>
      rw [List.pairwise_cons] at hsort hdis
      unfold deleteEdge at h
      cases hdet : t.detach child with
      | none =>
          rw [hdet] at h
          obtain ⟨G, hG, rfl⟩ := Option.map_eq_some_iff.1 h
          obtain ⟨u, hu, rest, hrest, hperm, hsorted⟩ :=
            ih hG (fun u hu => htree u (by simp [hu])) hsort.2 hdis.2
          refine ⟨u, by simp [hu], rest, hrest, ?_, List.pairwise_cons.2 ⟨fun v hv => ?_, hsorted⟩⟩
          · refine (List.Perm.swap t u G).trans ((hperm.cons t).trans ?_)
            exact (List.Perm.swap rest t _).trans ((List.Perm.swap child t F).cons rest)
          · -- the new trees lie within an old one
            have huval := htree u (by simp [hu])
            obtain ⟨hval, hterm, hlab, -⟩ := Tree.detach_spec huval hrest
            obtain ⟨hmem, -⟩ := Tree.mem_subtrees_of_detach hrest
            have hut := hsort.1 u hu
            have hle : ∀ {w : Tree}, w.labels ⊆ u.labels → t.least < w.least := fun hw =>
              hut.trans_le (huval.least_le
                (Tree.labels_subset_subtreeTerminals u (hw (Tree.least_mem_labels _))))
            have hv' : v ∈ rest :: child :: F := hperm.subset (by simp [hv])
            rcases List.mem_cons.1 hv' with rfl | hv'
            · exact hle (hlab ▸ Finset.sdiff_subset)
            rcases List.mem_cons.1 hv' with rfl | hv'
            · exact hle (Tree.labels_subset_of_mem_subtrees hmem)
            · exact hsort.1 v hv'
      | some rest =>
          rw [hdet] at h
          have hval := htree t (by simp)
          obtain ⟨hrval, hterm, hlab, -⟩ := Tree.detach_spec hval hdet
          obtain ⟨hmem, -⟩ := Tree.mem_subtrees_of_detach hdet
          have hleast := Tree.least_detach hval hdet
          -- a tree inserted after a smaller one of the two keeps the order
          have put : ∀ {a b : Tree}, a.least = t.least → b.least ∈ t.labels → a.least < b.least →
              (insertRoot b (a :: F)).Pairwise fun t u => t.least < u.least := by
            intro a b ha hb hab
            have hne : ∀ u ∈ F, u.least ≠ b.least := fun u hu he =>
              Finset.disjoint_left.1 (hdis.1 u hu) (Tree.labels_subset_subtreeTerminals t hb)
                (Tree.labels_subset_subtreeTerminals u (he ▸ u.least_mem_labels))
            unfold insertRoot
            rw [if_pos hab, List.pairwise_cons]
            refine ⟨fun u hu => ?_, sorted_insertRoot hsort.2 hne⟩
            rcases List.mem_cons.1 ((perm_insertRoot b F).subset hu) with rfl | hu
            · exact hab
            · exact ha ▸ hsort.1 u hu
          have hc : child.least ∈ t.labels := Tree.labels_subset_of_mem_subtrees hmem
            child.least_mem_labels
          have hrest : rest.least ∈ t.labels := Finset.sdiff_subset (hlab ▸ rest.least_mem_labels)
          refine ⟨t, by simp, rest, hdet, ?_⟩
          cases t with
          | leaf => cases h
          | node p l r =>
              dsimp only at h
              split_ifs at h with hlr hlt
              · obtain rfl := Option.some.inj h
                obtain ⟨-, -, -, hlr'⟩ := hval
                have hperm : ([l, r] : List Tree).Perm [rest, child] := by
                  unfold Tree.detach at hdet
                  by_cases hl : l = child
                  · rw [if_pos hl] at hdet
                    obtain rfl := Option.some.inj hdet
                    exact hl ▸ List.Perm.swap _ _ _
                  · have hr := hlr.resolve_left hl
                    rw [if_neg hl, if_pos hr] at hdet
                    obtain rfl := Option.some.inj hdet
                    exact hr ▸ List.Perm.refl _
                refine ⟨?_, put (min_eq_left hlr'.le).symm ?_ hlr'⟩
                · refine ((perm_insertRoot r (l :: F)).cons _).trans ?_
                  refine (((List.Perm.swap l r []).append_right F).cons _).trans ?_
                  refine ((hperm.append_right F).cons _).trans ?_
                  exact (List.Perm.swap rest _ _).trans ((List.Perm.swap child _ _).cons rest)
                · exact Finset.mem_union_right _ r.least_mem_labels
              · obtain rfl := Option.some.inj h
                refine ⟨?_, put (hleast ▸ (min_eq_left hlt.le).symm) hc hlt⟩
                refine ((perm_insertRoot child (rest :: F)).cons _).trans ?_
                refine (List.Perm.swap child _ _).trans ?_
                refine ((List.Perm.swap rest _ F).cons child).trans ?_
                exact List.Perm.swap rest child _
              · obtain rfl := Option.some.inj h
                have hlt' : child.least < rest.least := by
                  refine lt_of_le_of_ne (not_lt.1 hlt) fun he => ?_
                  have hmem' : rest.least ∈ (Tree.node p l r).labels \ child.labels :=
                    hlab ▸ rest.least_mem_labels
                  exact (Finset.mem_sdiff.1 hmem').2 (he ▸ child.least_mem_labels)
                refine ⟨?_, put (hleast ▸ (min_eq_right hlt'.le).symm) hrest hlt'⟩
                refine ((perm_insertRoot rest (child :: F)).cons _).trans ?_
                exact (List.Perm.swap rest _ _).trans ((List.Perm.swap child _ F).cons rest)

/-- The labels do not depend on the order of the trees. -/
theorem labels_perm {F G : Forest} (h : F.Perm G) : F.labels = G.labels := by
  ext x
  simp only [mem_labels, h.mem_iff]

/-- The clusters do not depend on the order of the trees. -/
theorem clusters_perm {F G : Forest} (h : F.Perm G) : F.clusters = G.clusters := by
  ext X
  simp only [mem_clusters, h.mem_iff]

/-- The nodes do not depend on the order of the trees. -/
theorem ptrs_perm {F G : Forest} (h : F.Perm G) : F.ptrs.Perm G.ptrs := h.flatMap_right _

/-- Every node with a parent can be cut off. -/
theorem exists_deleteEdge {F : Forest} (hF : F.Distinct) {child : Tree} (h : child ∈ F.subtrees)
    (hroot : child ∉ F) : ∃ F', F.deleteEdge child = some F' := by
  induction F with
  | nil => cases h
  | cons t F ih =>
      unfold deleteEdge
      cases hdet : t.detach child with
      | none =>
          obtain ⟨u, hu, hc⟩ := mem_subtrees.1 h
          rcases List.mem_cons.1 hu with rfl | hu
          · have hne : child ≠ u := fun he => hroot (he ▸ List.mem_cons_self ..)
            obtain ⟨rest, hrest⟩ := Tree.exists_detach hc hne
            rw [hdet] at hrest
            cases hrest
          · obtain ⟨G, hG⟩ := ih hF.2.1 (mem_subtrees.2 ⟨u, hu, hc⟩)
              fun hmem => hroot (List.mem_cons_of_mem _ hmem)
            exact ⟨t :: G, by rw [hG]; rfl⟩
      | some rest =>
          cases t with
          | leaf => cases hdet
          | node p l r =>
              dsimp only
              split_ifs
              · exact ⟨_, rfl⟩
              · exact ⟨_, rfl⟩
              · exact ⟨_, rfl⟩

section DeleteEdge

variable {F F' : Forest} {child : Tree}

/-- Only a node with a parent is cut off. -/
theorem mem_of_deleteEdge (hF : F.Valid) (h : F.deleteEdge child = some F') :
    child ∈ F.subtrees ∧ child ∉ F := by
  obtain ⟨t, ht, rest, hdet, -⟩ := deleteEdge_spec hF h
  obtain ⟨hmem, hne⟩ := Tree.mem_subtrees_of_detach hdet
  refine ⟨mem_subtrees.2 ⟨t, ht, hmem⟩, fun hroot => hne ?_⟩
  obtain ⟨x, hx⟩ := child.labels_nonempty
  exact hF.distinct.eq_of_mem hroot ht hx (Tree.labels_subset_of_mem_subtrees hmem hx)

/-- There is one more tree. -/
theorem length_deleteEdge (hF : F.Valid) (h : F.deleteEdge child = some F') :
    F'.length = F.length + 1 := by
  obtain ⟨t, ht, rest, -, hperm, -⟩ := deleteEdge_spec hF h
  have := hperm.length_eq
  simp only [List.length_cons] at this
  omega

/-- The trees are the two parts of the old tree and the other trees. -/
theorem perm_deleteEdge (hF : F.Valid) (h : F.deleteEdge child = some F') :
    ∃ t rest G, F.Perm (t :: G) ∧ F'.Perm (rest :: child :: G) ∧ t.detach child = some rest := by
  obtain ⟨t, ht, rest, hdet, hperm, -⟩ := deleteEdge_spec hF h
  have hG : F.Perm (t :: F.erase t) := List.perm_cons_erase ht
  refine ⟨t, rest, F.erase t, hG, List.Perm.cons_inv (a := t) (hperm.trans ?_), hdet⟩
  refine ((hG.cons child).cons rest).trans ?_
  exact ((List.Perm.swap t child _).cons rest).trans (List.Perm.swap t rest _)

/-- **A valid forest stays valid.** -/
theorem Valid.deleteEdge (hF : F.Valid) (h : F.deleteEdge child = some F') : F'.Valid := by
  obtain ⟨-, -, -, -, -, hsorted⟩ := deleteEdge_spec hF h
  obtain ⟨t, rest, G, hG, hperm, hdet⟩ := perm_deleteEdge hF h
  have ht : t ∈ F := hG.symm.subset (List.mem_cons_self ..)
  obtain ⟨hval, hterm, hlab, -⟩ := Tree.detach_spec (hF.tree t ht) hdet
  obtain ⟨p, -, -, -, -, hptr⟩ := Tree.ptrs_detach hdet
  obtain ⟨hmem, -⟩ := Tree.mem_subtrees_of_detach hdet
  have hdis := hG.pairwise hF.disjoint (fun h => h.symm)
  rw [List.pairwise_cons] at hdis
  have hsub : child.subtreeTerminals ⊆ t.subtreeTerminals :=
    Tree.subtreeTerminals_subset_of_mem_subtrees hmem
  have hsub' : rest.subtreeTerminals ⊆ t.subtreeTerminals := hterm ▸ Finset.sdiff_subset
  refine ⟨fun u hu => ?_, ?_, hsorted, ?_⟩
  · rcases List.mem_cons.1 (hperm.subset hu) with rfl | hu
    · exact hval
    rcases List.mem_cons.1 hu with rfl | hu
    · exact (hF.tree t ht).of_mem_subtrees hmem
    · exact hF.tree u (hG.symm.subset (List.mem_cons_of_mem _ hu))
  · refine hperm.symm.pairwise (List.pairwise_cons.2 ⟨fun u hu => ?_, List.pairwise_cons.2
      ⟨fun u hu => (hdis.1 u hu).mono_left hsub, hdis.2⟩⟩) (fun h => h.symm)
    rcases List.mem_cons.1 hu with rfl | hu
    · exact hterm ▸ Finset.sdiff_disjoint
    · exact (hdis.1 u hu).mono_left hsub'
  · have hn : (Forest.ptrs (t :: G)).Nodup := (ptrs_perm hG).nodup_iff.1 hF.nodup
    refine (ptrs_perm hperm).nodup_iff.2 ?_
    simp only [Forest.ptrs, List.flatMap_cons] at hn ⊢
    have := ((hptr.append_right (G.flatMap Tree.ptrs)).nodup_iff).2 hn
    rw [List.cons_append, List.nodup_cons, List.append_assoc] at this
    exact this.2

/-- Cutting an edge keeps the labels. -/
theorem labels_deleteEdge (hF : F.Valid) (h : F.deleteEdge child = some F') :
    F'.labels = F.labels := by
  obtain ⟨t, rest, G, hG, hperm, hdet⟩ := perm_deleteEdge hF h
  have ht : t ∈ F := hG.symm.subset (List.mem_cons_self ..)
  obtain ⟨-, -, hlab, -⟩ := Tree.detach_spec (hF.tree t ht) hdet
  obtain ⟨hmem, -⟩ := Tree.mem_subtrees_of_detach hdet
  rw [labels_perm hG, labels_perm hperm]
  simp only [labels_cons]
  rw [hlab, ← Finset.union_assoc, Finset.sdiff_union_of_subset
    (Tree.labels_subset_of_mem_subtrees hmem)]

/-- **The edge above the node is cut.** -/
theorem clusters_deleteEdge (hF : F.Valid) (h : F.deleteEdge child = some F') :
    F'.clusters = cutAt child.labels F.clusters := by
  obtain ⟨t, rest, G, hG, hperm, hdet⟩ := perm_deleteEdge hF h
  have ht : t ∈ F := hG.symm.subset (List.mem_cons_self ..)
  obtain ⟨-, -, -, hcl⟩ := Tree.detach_spec (hF.tree t ht) hdet
  obtain ⟨hmem, -⟩ := Tree.mem_subtrees_of_detach hdet
  rw [clusters_perm hG, clusters_perm hperm]
  simp only [clusters_cons]
  rw [← Finset.union_assoc, hcl]
  have hother : cutAt child.labels (clusters G) = clusters G := by
    refine (Finset.image_congr fun X hX => if_neg fun hss => ?_).trans Finset.image_id
    obtain ⟨u, hu, hX⟩ := mem_clusters.1 (Finset.mem_coe.1 hX)
    obtain ⟨x, hx⟩ := child.labels_nonempty
    have hut : u ∈ F := hG.symm.subset (List.mem_cons_of_mem _ hu)
    have hne : t ≠ u := by
      rintro rfl
      have hdis := hG.pairwise hF.disjoint (fun h => h.symm)
      obtain ⟨y, hy⟩ := t.labels_nonempty
      have hy := Tree.labels_subset_subtreeTerminals t hy
      exact Finset.disjoint_left.1 ((List.pairwise_cons.1 hdis).1 t hu) hy hy
    exact hne (hF.distinct.eq_of_mem ht hut (Tree.labels_subset_of_mem_subtrees hmem hx)
      (Tree.subset_labels hX (hss.1 hx)))
  have hunion : cutAt child.labels (t.clusters ∪ clusters G) =
      cutAt child.labels t.clusters ∪ cutAt child.labels (clusters G) := Finset.image_union _ _
  rw [hunion, hother]

/-- **A subtree apart from the one cut off stays**, and so does the one cut off. -/
theorem mem_subtrees_deleteEdge (hF : F.Valid) (h : F.deleteEdge child = some F') {u : Tree} (hu : u ∈ F.subtrees)
    (hd : u = child ∨ Disjoint u.labels child.labels) : u ∈ F'.subtrees := by
  obtain ⟨t, rest, G, hG, hperm, hdet⟩ := perm_deleteEdge hF h
  have hmem : ∀ {s : Tree}, s ∈ rest :: child :: G → u ∈ s.subtrees → u ∈ F'.subtrees := fun hs hu =>
    mem_subtrees.2 ⟨_, hperm.symm.subset hs, hu⟩
  rcases hd with rfl | hd
  · exact hmem (by simp) (Tree.mem_subtrees_self _)
  · obtain ⟨s, hs, hus⟩ := mem_subtrees.1 hu
    rcases List.mem_cons.1 (hG.subset hs) with rfl | hs
    · exact hmem (List.mem_cons_self ..) (Tree.mem_subtrees_detach hdet hus hd)
    · exact hmem (by simp [hs]) hus

/-- **The terminals stay.** -/
theorem leaf_mem_deleteEdge (hF : F.Valid) (h : F.deleteEdge child = some F') {p : Ptr} {x : Label}
    {m : Finset Label} : Tree.leaf p x m ∈ F'.subtrees ↔ Tree.leaf p x m ∈ F.subtrees := by
  obtain ⟨t, rest, G, hG, hperm, hdet⟩ := perm_deleteEdge hF h
  obtain ⟨hmem, -⟩ := Tree.mem_subtrees_of_detach hdet
  have ht : t ∈ F := hG.symm.subset (List.mem_cons_self ..)
  constructor
  · intro hx
    obtain ⟨s, hs, hxs⟩ := mem_subtrees.1 hx
    rcases List.mem_cons.1 (hperm.subset hs) with rfl | hs
    · exact mem_subtrees.2 ⟨t, ht, Tree.leaf_mem_of_detach hdet hxs⟩
    rcases List.mem_cons.1 hs with rfl | hs
    · exact mem_subtrees.2 ⟨t, ht, Tree.subtrees_trans hxs hmem⟩
    · exact mem_subtrees.2 ⟨s, hG.symm.subset (List.mem_cons_of_mem _ hs), hxs⟩
  · intro hx
    by_cases hxc : Tree.leaf p x m ∈ child.subtrees
    · exact mem_subtrees.2 ⟨child, hperm.symm.subset (by simp), hxc⟩
    · refine mem_subtrees_deleteEdge hF h hx (Or.inr ?_)
      rw [Tree.labels, Finset.disjoint_singleton_left]
      intro hxl
      obtain ⟨q, m', hq⟩ := Tree.exists_leaf hxl
      have hqF : Tree.leaf q x m' ∈ F.subtrees := mem_subtrees.2 ⟨t, ht, Tree.subtrees_trans hq hmem⟩
      exact hxc (eq_of_labels_eq hF.distinct hqF hx rfl ▸ hq)

end DeleteEdge

/-- Cuts a node off; a root stays as it is. -/
def cut (c : Tree) (F : Forest) : Forest := (F.deleteEdge c).getD F

section Cut

variable {F : Forest} {c : Tree}

/-- A cut that succeeds is the cut. -/
theorem cut_of_deleteEdge {F' : Forest} (h : F.deleteEdge c = some F') : F.cut c = F' := by
  rw [cut, h, Option.getD_some]

/-- Cutting a root changes nothing. -/
theorem cut_of_mem (hF : F.Valid) (hroot : c ∈ F) : F.cut c = F := by
  cases hd : F.deleteEdge c with
  | some F' => exact absurd hroot (mem_of_deleteEdge hF hd).2
  | none => rw [cut, hd, Option.getD_none]

/-- Nothing lies properly around a root. -/
theorem cutAt_labels_of_mem (hF : F.Valid) (hroot : c ∈ F) : cutAt c.labels F.clusters = F.clusters := by
  refine (Finset.image_congr fun X hX => if_neg fun hss => ?_).trans Finset.image_id
  obtain ⟨u, hu, hX⟩ := mem_clusters.1 (Finset.mem_coe.1 hX)
  obtain ⟨x, hx⟩ := c.labels_nonempty
  obtain rfl := hF.distinct.eq_of_mem hroot hu hx (Tree.subset_labels hX (hss.1 hx))
  exact hss.2 (Tree.subset_labels hX)

/-- **Cutting a node off.** -/
theorem cut_spec (hF : F.Valid) (hc : c ∈ F.subtrees) : (F.cut c).Valid ∧ (F.cut c).labels = F.labels ∧
    (F.cut c).clusters = cutAt c.labels F.clusters := by
  by_cases hroot : c ∈ F
  · rw [cut_of_mem hF hroot]
    exact ⟨hF, rfl, (cutAt_labels_of_mem hF hroot).symm⟩
  · obtain ⟨F', hd⟩ := exists_deleteEdge hF.distinct hc hroot
    rw [cut_of_deleteEdge hd]
    exact ⟨hF.deleteEdge hd, labels_deleteEdge hF hd, clusters_deleteEdge hF hd⟩

/-- A subtree apart from the one cut off stays, and so does the one cut off. -/
theorem mem_subtrees_cut (hF : F.Valid) {u : Tree} (hu : u ∈ F.subtrees)
    (hd : u = c ∨ Disjoint u.labels c.labels) : u ∈ (F.cut c).subtrees := by
  unfold cut
  cases hcut : F.deleteEdge c with
  | none => exact hu
  | some F' => exact mem_subtrees_deleteEdge hF hcut hu hd

/-- The node that is cut off is a tree of its own. -/
theorem mem_cut_self (hF : F.Valid) (hc : c ∈ F.subtrees) : c ∈ F.cut c := by
  by_cases hroot : c ∈ F
  · rwa [cut_of_mem hF hroot]
  · obtain ⟨F', hd⟩ := exists_deleteEdge hF.distinct hc hroot
    obtain ⟨-, rest, G, -, hperm, -⟩ := perm_deleteEdge hF hd
    rw [cut_of_deleteEdge hd]
    exact hperm.symm.subset (by simp)

/-- The other trees stay. -/
theorem mem_cut_of_disjoint (hF : F.Valid) {u : Tree} (hu : u ∈ F) (hd : Disjoint u.labels c.labels) : u ∈ F.cut c := by
  unfold cut
  cases hcut : F.deleteEdge c with
  | none => exact hu
  | some F' =>
      obtain ⟨t, rest, G, hG, hperm, hdet⟩ := perm_deleteEdge hF hcut
      rcases List.mem_cons.1 (hG.subset hu) with rfl | hu
      · obtain ⟨x, hx⟩ := c.labels_nonempty
        have hxu := Tree.labels_subset_of_mem_subtrees (Tree.mem_subtrees_of_detach hdet).1 hx
        exact absurd hx (Finset.disjoint_left.1 hd hxu)
      · exact hperm.symm.subset (by simp [hu])

/-- The terminals stay. -/
theorem leaf_mem_cut (hF : F.Valid) {p : Ptr} {x : Label} {m : Finset Label} :
    Tree.leaf p x m ∈ (F.cut c).subtrees ↔ Tree.leaf p x m ∈ F.subtrees := by
  unfold cut
  cases hcut : F.deleteEdge c with
  | none => exact Iff.rfl
  | some F' => exact leaf_mem_deleteEdge hF hcut

end Cut

/-- Cuts a terminal off, given by its label; a root stays as it is. -/
def cutLabel (x : Label) (F : Forest) : Forest :=
  match F.labelToTerminal x with
  | none => F
  | some n => (F.deleteEdge n).getD F

section CutLabel

variable {F : Forest} {x : Label}

/-- Cutting a label cuts the edge above its leaf. -/
theorem cutLabel_leaf (hF : F.Valid) {p : Ptr} {m : Finset Label} (h : Tree.leaf p x m ∈ F.subtrees) :
    F.cutLabel x = F.cut (.leaf p x m) := by
  rw [cutLabel, labelToTerminal_leaf hF h]
  rfl

/-- **Cutting a terminal off.** -/
theorem cutLabel_spec (hF : F.Valid) (hx : x ∈ F.labels) : (F.cutLabel x).Valid ∧
    (F.cutLabel x).labels = F.labels ∧ (F.cutLabel x).clusters = cutAt {x} F.clusters := by
  obtain ⟨p, m, -, hmem⟩ := exists_labelToTerminal hF hx
  rw [cutLabel_leaf hF hmem]
  exact cut_spec hF hmem

end CutLabel

end Forest
end Maf
