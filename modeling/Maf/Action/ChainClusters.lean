/-
# A chain and its clusters

What `ShortenChainAction::doAction` of `src/Solver/Action/ShortenChainAction.cpp` does to the clusters of a
forest: the labels that are taken out are taken out of every cluster
(`Forest.clusters_replaceAt`).

The chain that `src/Solver/Rule/ChainReductionRule.cpp` follows from terminal to uncle is a chain in terms of
clusters (`Forest.chained_of_isChain`): it hangs above the sibling of its first
terminal.
-/

import Maf.Action.ShortenChainUndo
import Maf.CommonChain

namespace Maf

open Graph

namespace Tree

variable {A L S U t : Tree} {ks ls : List Label}

/-- A chain above a chain. -/
theorem Hung.trans (h : Hung A ks L) (h' : Hung L ls U) : Hung A (ks ++ ls) U := by
  induction h' with
  | nil => rwa [List.append_nil]
  | left g v x m _ ih => exact List.append_assoc .. ▸ ih.left g v x m
  | right g v x m _ ih => exact List.append_assoc .. ▸ ih.right g v x m

/-- The subtree at the top of a chain has the labels of its bottom and of the chain. -/
theorem Hung.labels_eq (h : Hung L ls U) : U.labels = L.labels ∪ ls.toFinset := by
  induction h with
  | nil => simp
  | left g v x m _ ih =>
      rw [labels, ih, List.toFinset_append, Finset.union_assoc]
      rfl
  | right g v x m _ ih =>
      rw [labels, ih, List.toFinset_append, Finset.union_comm, Finset.union_assoc]
      rfl

/-- The labels of the chain are new. -/
theorem Hung.disjoint (h : Hung L ls U) (hU : U.Distinct) : Disjoint L.labels ls.toFinset := by
  induction h with
  | nil => simp
  | left g v x m hu ih =>
      rw [List.toFinset_append, Finset.disjoint_union_right]
      refine ⟨ih hU.1, hU.2.2.mono_left ?_⟩
      rw [hu.labels_eq]
      exact Finset.subset_union_left
  | right g v x m hu ih =>
      rw [List.toFinset_append, Finset.disjoint_union_right]
      refine ⟨ih hU.2.1, hU.2.2.symm.mono_left ?_⟩
      rw [hu.labels_eq]
      exact Finset.subset_union_left

/-- The lower end of a chain is a chain. -/
theorem Hung.take (h : Hung L ls U) (k : ℕ) : ∃ V ∈ U.subtrees, Hung L (ls.take k) V := by
  induction h with
  | nil => exact ⟨L, mem_subtrees_self L, by rw [List.take_nil]; exact .nil⟩
  | @left ls u g v x m hu ih =>
      by_cases hk : k ≤ ls.length
      · obtain ⟨V, hV, hH⟩ := ih
        refine ⟨V, mem_subtrees_node.2 (Or.inr (Or.inl hV)), ?_⟩
        rwa [List.take_append_of_le_length hk]
      · refine ⟨_, mem_subtrees_self _, ?_⟩
        rw [List.take_of_length_le (by rw [List.length_append, List.length_singleton]; omega)]
        exact hu.left g v x m
  | @right ls u g v x m hu ih =>
      by_cases hk : k ≤ ls.length
      · obtain ⟨V, hV, hH⟩ := ih
        refine ⟨V, mem_subtrees_node.2 (Or.inr (Or.inr hV)), ?_⟩
        rwa [List.take_append_of_le_length hk]
      · refine ⟨_, mem_subtrees_self _, ?_⟩
        rw [List.take_of_length_le (by rw [List.length_append, List.length_singleton]; omega)]
        exact hu.right g v x m

/-- **A chain in a tree** is one of its clusters. -/
theorem Hung.chained (h : Hung A ls U) (hU : U.Distinct) {C : Finset (Finset Label)} (hC : U.clusters ⊆ C) :
    Chained C A.labels ls.toFinset ls.idxOf := by
  refine ⟨fun x hx y _ he => ?_, h.disjoint hU, fun k => hC ?_⟩
  · exact (List.idxOf_inj (List.mem_toFinset.1 hx)).1 he
  · obtain ⟨V, hV, hH⟩ := h.take k
    refine mem_clusters_iff.2 ⟨V, hV, ?_⟩
    rw [hH.labels_eq]
    ext x
    rw [mem_upTo, Finset.mem_union, List.mem_toFinset, List.mem_toFinset]
    refine or_congr_right ⟨fun hx => ?_, fun hx => (List.mem_take_iff_idxOf_lt hx.1).2 hx.2⟩
    have hmem := List.mem_of_mem_take hx
    exact ⟨hmem, (List.mem_take_iff_idxOf_lt hmem).1 hx⟩

/-- The clusters below a chain. -/
theorem Hung.mem_clusters_iff (h : Hung L ls U) {R : Finset Label} (hls : ls.toFinset ⊆ R) (hR : Disjoint L.labels R)
    {X : Finset Label} : X ∈ L.clusters ↔ X.Nonempty ∧ ∃ Y ∈ U.clusters, Y \ R = X := by
  -- one terminal more adds nothing
  have step : ∀ {u w : Tree} {x : Label}, w.clusters = insert (u.labels ∪ {x}) (u.clusters ∪ {{x}}) → x ∈ R →
      (X ∈ L.clusters ↔ X.Nonempty ∧ ∃ Y ∈ u.clusters, Y \ R = X) →
      (X ∈ L.clusters ↔ X.Nonempty ∧ ∃ Y ∈ w.clusters, Y \ R = X) := by
    intro u w x hw hx ih
    rw [ih]
    refine and_congr_right fun hne => ⟨fun ⟨Y, hY, he⟩ => ⟨Y, ?_, he⟩, ?_⟩
    · rw [hw]
      exact Finset.mem_insert_of_mem (Finset.mem_union_left _ hY)
    · rintro ⟨Y, hY, rfl⟩
      rw [hw, Finset.mem_insert, Finset.mem_union, Finset.mem_singleton] at hY
      have hxR : ({x} : Finset Label) \ R = ∅ := Finset.sdiff_eq_empty_iff_subset.2 (Finset.singleton_subset_iff.2 hx)
      rcases hY with rfl | hY | rfl
      · exact ⟨u.labels, u.labels_mem_clusters, by rw [Finset.union_sdiff_distrib, hxR, Finset.union_empty]⟩
      · exact ⟨Y, hY, rfl⟩
      · rw [hxR] at hne
        simp at hne
  induction h with
  | nil =>
      constructor
      · exact fun hX => ⟨cluster_nonempty hX, X, hX, Finset.sdiff_eq_self_of_disjoint (hR.mono_left (subset_labels hX))⟩
      · rintro ⟨-, Y, hY, rfl⟩
        rwa [Finset.sdiff_eq_self_of_disjoint (hR.mono_left (subset_labels hY))]
  | left g v x m _ ih =>
      rw [List.toFinset_append, Finset.union_subset_iff] at hls
      exact step rfl (hls.2 (by simp)) (ih hls.1)
  | right g v x m _ ih =>
      rw [List.toFinset_append, Finset.union_subset_iff] at hls
      have hx : x ∈ R := hls.2 (by simp)
      refine step (x := x) ?_ hx (ih hls.1)
      rw [clusters, Finset.union_comm, Finset.union_comm (leaf v x m).clusters]
      rfl

/-- **The clusters of a tree without a chain.** -/
theorem mem_clusters_replaceAt (hH : Hung S ls U) (hv : t.Valid) (hn : t.ptrs.Nodup) (hU : U ∈ t.subtrees) :
    (t.replaceAt U.ptr S).labels = t.labels \ ls.toFinset ∧
      ∀ X, X ∈ (t.replaceAt U.ptr S).clusters ↔ X.Nonempty ∧ ∃ Y ∈ t.clusters, Y \ ls.toFinset = X := by
  set R := ls.toFinset with hR
  have hUd := (hv.of_mem_subtrees hU).distinct
  have hRU : R ⊆ U.labels := hH.labels_eq ▸ Finset.subset_union_right
  have hout : ∀ {c o : Tree}, U ∈ c.subtrees → Disjoint c.labels o.labels → Disjoint o.labels R := fun hc hd =>
    (hd.mono_left (hRU.trans (labels_subset_of_mem_subtrees hc))).symm
  -- the children of a node, one of which is without the chain
  have step : ∀ {l l' r w w' : Tree}, w.labels = l.labels ∪ r.labels → w'.labels = l'.labels ∪ r.labels →
      w.clusters = insert (l.labels ∪ r.labels) (l.clusters ∪ r.clusters) →
      w'.clusters = insert (l'.labels ∪ r.labels) (l'.clusters ∪ r.clusters) → Disjoint r.labels R →
      (l'.labels = l.labels \ R ∧ ∀ X, X ∈ l'.clusters ↔ X.Nonempty ∧ ∃ Y ∈ l.clusters, Y \ R = X) →
      w'.labels = w.labels \ R ∧ ∀ X, X ∈ w'.clusters ↔ X.Nonempty ∧ ∃ Y ∈ w.clusters, Y \ R = X := by
    rintro l l' r w w' hwl hwl' hw hw' hd ⟨hlab, hcl⟩
    have hr : r.labels \ R = r.labels := Finset.sdiff_eq_self_of_disjoint hd
    have hlabels : l'.labels ∪ r.labels = (l.labels ∪ r.labels) \ R := by rw [Finset.union_sdiff_distrib, hr, hlab]
    have hrc : ∀ Y ∈ r.clusters, Y \ R = Y :=
      fun Y hY => Finset.sdiff_eq_self_of_disjoint (hd.mono_left (subset_labels hY))
    refine ⟨by rw [hwl', hwl, hlabels], fun X => ?_⟩
    rw [hw', hw]
    simp only [Finset.mem_insert, Finset.mem_union, hcl, or_and_right, exists_or, exists_eq_left]
    constructor
    · rintro (rfl | ⟨hne, Y, hY, rfl⟩ | hX)
      · exact ⟨r.labels_nonempty.mono Finset.subset_union_right, Or.inl hlabels.symm⟩
      · exact ⟨hne, Or.inr (Or.inl ⟨Y, hY, rfl⟩)⟩
      · exact ⟨cluster_nonempty hX, Or.inr (Or.inr ⟨X, hX, hrc X hX⟩)⟩
    · rintro ⟨hne, rfl | ⟨Y, hY, rfl⟩ | ⟨Y, hY, rfl⟩⟩
      · exact Or.inl hlabels.symm
      · exact Or.inr (Or.inl ⟨hne, Y, hY, rfl⟩)
      · exact Or.inr (Or.inr (by rwa [hrc Y hY]))
  refine replaceAt_induction (motive := fun t t' => t'.labels = t.labels \ R ∧
    ∀ X, X ∈ t'.clusters ↔ X.Nonempty ∧ ∃ Y ∈ t.clusters, Y \ R = X) ?_ ?_ ?_ hv hn hU
  · refine ⟨?_, fun X => hH.mem_clusters_iff (Finset.Subset.refl _) (hH.disjoint hUd)⟩
    rw [hH.labels_eq, Finset.union_sdiff_cancel_right (hH.disjoint hUd)]
  · intro q l r hval _ hUl ih
    exact step rfl (labels_sortedNode ..) rfl (clusters_sortedNode ..) (hout hUl hval.distinct.2.2) ih
  · intro q l r hval _ hUr ih
    refine step (l := r) (r := l) (Finset.union_comm ..) ((labels_sortedNode ..).trans (Finset.union_comm ..)) ?_ ?_
      (hout hUr hval.distinct.2.2.symm) ih
    · rw [clusters, Finset.union_comm, Finset.union_comm l.clusters]
    · rw [clusters_sortedNode, Finset.union_comm, Finset.union_comm l.clusters]

end Tree

namespace Forest

variable {width : ℕ} {s : Store} {F : Forest} {L U : Tree} {c : Label} {ls : List Label}

/-- **A forest without a chain** has the clusters of the forest without the labels of the chain. -/
theorem clusters_replaceAt (hF : F.Valid) (hU : U ∈ F.subtrees) (hH : Tree.Hung L ls U) :
    (F.replaceAt U.ptr L).labels = F.labels \ ls.toFinset ∧
      (F.replaceAt U.ptr L).clusters = trace F.clusters (F.labels \ ls.toFinset) := by
  obtain ⟨A, t, B, rfl, hUt, hperm, -⟩ := exists_split hF hU L
  obtain ⟨hnt, -⟩ := notMem_of_split hF.nodup
  obtain ⟨hlab, hcl⟩ := Tree.mem_clusters_replaceAt hH (hF.tree t (by simp)) hnt hUt
  set R := ls.toFinset with hR
  have hRt : R ⊆ t.labels := by
    refine Finset.Subset.trans ?_ (Tree.labels_subset_of_mem_subtrees hUt)
    rw [hH.labels_eq]
    exact Finset.subset_union_right
  -- the other trees have none of its labels
  have hout : ∀ u ∈ A ++ B, Disjoint u.labels R := by
    intro u hu
    have hd := (List.pairwise_cons.1 (hF.disjoint.perm List.perm_middle fun h => Disjoint.symm h)).1 u hu
    exact (hd.mono (hRt.trans t.labels_subset_subtreeTerminals) u.labels_subset_subtreeTerminals).symm
  have hmem : ∀ {v}, v ∈ replaceAt U.ptr L (A ++ t :: B) ↔ v = t.replaceAt U.ptr L ∨ v ∈ A ++ B := fun {v} => by
    rw [hperm.mem_iff, List.mem_cons]
  have hmem' : ∀ {v}, v ∈ A ++ t :: B ↔ v = t ∨ v ∈ A ++ B := fun {v} => by
    rw [List.perm_middle.mem_iff, List.mem_cons]
  refine ⟨?_, ?_⟩
  · ext x
    simp only [Finset.mem_sdiff, mem_labels, hmem, hmem', or_and_right, exists_or, exists_eq_left, hlab]
    refine or_congr_right ⟨fun ⟨u, hu, hx⟩ => ⟨⟨u, hu, hx⟩, ?_⟩, And.left⟩
    exact Finset.disjoint_left.1 (hout u hu) hx
  · ext X
    -- below the labels that stay a cluster loses the labels of the chain
    have hcut : ∀ Y ∈ clusters (A ++ t :: B), Y ∩ (labels (A ++ t :: B) \ R) = Y \ R := fun Y hY => by
      rw [← Finset.inter_sdiff_assoc, Finset.inter_eq_left.2 (subset_labels hY)]
    have hcl' : ∀ u ∈ A ++ B, ∀ Y ∈ u.clusters, Y \ R = Y := fun u hu Y hY =>
      Finset.sdiff_eq_self_of_disjoint ((hout u hu).mono_left (Tree.subset_labels hY))
    have htrace : X ∈ trace (clusters (A ++ t :: B)) (labels (A ++ t :: B) \ R) ↔
        X.Nonempty ∧ ∃ Y ∈ clusters (A ++ t :: B), Y \ R = X := by
      rw [mem_trace]
      refine and_congr_right fun _ => exists_congr fun Y => and_congr_right fun hY => ?_
      rw [hcut Y hY]
    rw [htrace]
    simp only [mem_clusters, hmem, hmem']
    constructor
    · rintro ⟨v, rfl | hv, hX⟩
      · obtain ⟨hne, Y, hY, rfl⟩ := (hcl X).1 hX
        exact ⟨hne, Y, ⟨t, Or.inl rfl, hY⟩, rfl⟩
      · exact ⟨Tree.cluster_nonempty hX, X, ⟨v, Or.inr hv, hX⟩, hcl' v hv X hX⟩
    · rintro ⟨hne, Y, ⟨v, rfl | hv, hY⟩, rfl⟩
      · exact ⟨_, Or.inl rfl, (hcl _).2 ⟨hne, Y, hY, rfl⟩⟩
      · exact ⟨v, Or.inr hv, by rwa [hcl' v hv Y hY]⟩

/-- **The chain of the memory is a chain of the forest**, above the sibling of its first terminal. -/
theorem chained_of_isChain (hF : F.WellFormed width s) (hI : F.Indexed s) (hls : ls ≠ [])
    (hchain : List.IsChain s.Link (c :: ls)) :
    ∃ A, Chained F.clusters A (c :: ls).toFinset (c :: ls).idxOf := by
  obtain ⟨y, rest, rfl⟩ := List.exists_cons_of_ne_nil hls
  obtain ⟨n, p, g, u, hn, hnx, hp, -, -, -, -⟩ := (List.isChain_cons_cons.1 hchain).1
  obtain ⟨k, hleaf, -⟩ := hI.exists_terminal hnx
  -- the terminal hangs above its sibling
  obtain ⟨a, L, hLF, rfl, hH₁⟩ : ∃ a L, L ∈ F.subtrees ∧ L.ptr = p ∧ Tree.Hung a [c] L := by
    obtain ⟨a, h, -⟩ := hF.exists_parent (c := Tree.leaf n c k) hleaf hp
    rcases h with h | h
    · exact ⟨a, _, h, rfl, Tree.Hung.nil.right p n c k⟩
    · exact ⟨a, _, h, rfl, Tree.Hung.nil.left p n c k⟩
  obtain ⟨U, -, -, hH, hU, -⟩ := hung_of_isChain hF hI hn hp hLF hchain
  have hUd := (hF.valid.of_mem_subtrees hU).distinct
  refine ⟨a.labels, (hH₁.trans hH).chained hUd fun X hX => ?_⟩
  obtain ⟨w, hw, rfl⟩ := Tree.mem_clusters_iff.1 hX
  obtain ⟨t, ht, hUt⟩ := mem_subtrees.1 hU
  exact labels_mem_clusters (mem_subtrees.2 ⟨t, ht, Tree.subtrees_trans hw hUt⟩)

end Forest

end Maf
