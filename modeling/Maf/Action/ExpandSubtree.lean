/-
# Expanding a collapsed subtree

`CollapseSubtreeAction::undoAction` (`src/Solver/Action/CollapseSubtreeAction.cpp`) hangs the
children back under the terminal that a subtree was collapsed to.  It runs at the end of a search,
when edges have been cut since the collapse: the terminal has moved with its tree, and all that is
left of the forest is its terminals.

In the forest the terminal gives way to the subtree (`Forest.expand`), whatever tree it is in now;
the clusters are those of `expandAt`.  The memory follows: in any memory whose forest has the
terminals of the collapsed one and no other address, `undoAction` leaves the expanded forest, well
formed and with the maps it had before the collapse (`exists_undoCollapse`).
-/

import Maf.Action.CollapseSubtreeAction
import Maf.Expansion

namespace Maf

open Bitset (encode Within)
open Graph

namespace Tree

/-- The tree with `v` in the place of the terminal at its address. -/
def expand : Tree → Tree → Tree
  | leaf q x m, v => if q = v.ptr then v else leaf q x m
  | node q l r, v => node q (l.expand v) (r.expand v)

/-- **The terminals fit `v`**: the one at its address is the collapsed `v`, and no other has
labels of `v`. -/
def Fits (v : Tree) (L : List Tree) : Prop :=
  ∀ q x m, leaf q x m ∈ L → q = v.ptr ∨ x ∈ v.labels → leaf q x m = v.collapsed

section Expand

variable {v t : Tree}

/-- A subtree that fits a tree fits its left child. -/
theorem Fits.left {q : Ptr} {l r : Tree} (h : v.Fits (node q l r).subtrees) : v.Fits l.subtrees :=
  fun p x m hp => h p x m (mem_subtrees_node.2 (Or.inr (Or.inl hp)))

/-- A subtree that fits a tree fits its right child. -/
theorem Fits.right {q : Ptr} {l r : Tree} (h : v.Fits (node q l r).subtrees) : v.Fits r.subtrees :=
  fun p x m hp => h p x m (mem_subtrees_node.2 (Or.inr (Or.inr hp)))

/-- A subtree that fits a tree fits the subtrees of it. -/
theorem Fits.of_mem {u : Tree} (h : v.Fits t.subtrees) (hu : u ∈ t.subtrees) : v.Fits u.subtrees :=
  fun p x m hp => h p x m (subtrees_trans hp hu)

/-- The terminal at the address is the collapsed subtree, and carries its smallest label. -/
theorem Fits.eq_iff {q : Ptr} {x : Label} {m : Finset Label} (h : v.Fits (leaf q x m).subtrees) :
    q = v.ptr ↔ x = v.least := by
  constructor
  · intro hq
    exact (leaf.inj (h q x m (mem_subtrees_self _) (Or.inl hq))).2.1
  · intro hx
    exact (leaf.inj (h q x m (mem_subtrees_self _) (Or.inr (hx ▸ v.least_mem_labels)))).1

/-- **What depends on the terminals only**, and is the same for the subtree and its terminal, is
the same after the expansion. -/
theorem expand_induction {motive : Tree → Tree → Prop} (h : v.Fits t.subtrees) (hit : motive v.collapsed v)
    (miss : ∀ q x m, q ≠ v.ptr → x ∉ v.labels → motive (leaf q x m) (leaf q x m))
    (join : ∀ q l r l' r', motive l l' → motive r r' → motive (node q l r) (node q l' r')) :
    motive t (t.expand v) := by
  induction t with
  | leaf q x m =>
      unfold expand
      split_ifs with hq
      · rw [h q x m (mem_subtrees_self _) (Or.inl hq)]
        exact hit
      · exact miss q x m hq fun hx => hq (leaf.inj (h q x m (mem_subtrees_self _) (Or.inr hx))).1
  | node q l r ihl ihr => exact join q l r _ _ (ihl h.left) (ihr h.right)

/-- Expanding moves no root. -/
@[simp] theorem ptr_expand (t v : Tree) : (t.expand v).ptr = t.ptr := by
  cases t with
  | leaf q x m =>
      unfold expand
      split_ifs with hq
      · exact hq.symm
      · rfl
  | node => rfl

/-- A tree without the node is not expanded. -/
theorem expand_of_notMem (hv : v.ptr ∉ t.ptrs) : t.expand v = t := by
  induction t with
  | leaf q x m => exact if_neg fun he => hv (by simp [he])
  | node q l r ihl ihr =>
      simp only [ptrs, List.mem_cons, List.mem_append, not_or] at hv
      rw [expand, ihl hv.2.1, ihr hv.2.2]

/-- Expanding keeps the terminals. -/
theorem subtreeTerminals_expand (h : v.Fits t.subtrees) : (t.expand v).subtreeTerminals = t.subtreeTerminals :=
  expand_induction (motive := fun t t' => t'.subtreeTerminals = t.subtreeTerminals) h
    (subtreeTerminals_collapsed v).symm (fun _ _ _ _ _ => rfl)
    fun _ _ _ _ _ hl hr => by rw [subtreeTerminals, hl, hr, subtreeTerminals]

/-- Expanding keeps the least label. -/
theorem least_expand (h : v.Fits t.subtrees) : (t.expand v).least = t.least :=
  expand_induction (motive := fun t t' => t'.least = t.least) h rfl (fun _ _ _ _ _ => rfl)
    fun _ _ _ _ _ hl hr => by rw [least_node, hl, hr, least_node]

/-- **The labels of the expanded tree.** -/
theorem labels_expand (h : v.Fits t.subtrees) :
    (t.expand v).labels = if v.least ∈ t.labels then t.labels ∪ v.labels else t.labels := by
  refine expand_induction (motive := fun t t' => t'.labels =
    if v.least ∈ t.labels then t.labels ∪ v.labels else t.labels)
    h ?_ (fun q x m _ hx => ?_) fun q l r l' r' hl hr => ?_
  · have hmem : v.least ∈ v.collapsed.labels := Finset.mem_singleton_self _
    rw [if_pos hmem]
    exact (Finset.union_eq_right.2 (Finset.singleton_subset_iff.2 v.least_mem_labels)).symm
  · refine (if_neg fun hmem => hx ?_).symm
    rw [← Finset.mem_singleton.1 hmem]
    exact v.least_mem_labels
  · rw [labels, hl, hr, labels]
    ext x
    split_ifs <;> simp_all <;> tauto

/-- Expanding keeps a tree valid. -/
theorem Valid.expand (hv : v.Valid) (ht : t.Valid) (h : v.Fits t.subtrees) : (t.expand v).Valid := by
  induction t with
  | leaf q x m =>
      unfold Tree.expand
      split_ifs
      · exact hv
      · exact ht
  | node q l r ihl ihr =>
      refine ⟨ihl ht.1 h.left, ihr ht.2.1 h.right, ?_, ?_⟩
      · rw [subtreeTerminals_expand h.left, subtreeTerminals_expand h.right]
        exact ht.2.2.1
      · rw [least_expand h.left, least_expand h.right]
        exact ht.2.2.2

/-- **The subtrees of the expanded tree** are those of the tree, expanded, and those of `v`. -/
theorem mem_subtrees_expand (h : v.Fits t.subtrees) {s : Tree} : s ∈ (t.expand v).subtrees ↔
    (∃ u ∈ t.subtrees, u.expand v = s) ∨ v.collapsed ∈ t.subtrees ∧ s ∈ v.subtrees := by
  induction t with
  | leaf q x m =>
      have hone : ∀ {u}, u ∈ (leaf q x m).subtrees → u = leaf q x m := List.mem_singleton.1
      rw [expand]
      split_ifs with hq
      · constructor
        · intro hs
          refine Or.inr ⟨?_, hs⟩
          rw [h q x m (mem_subtrees_self _) (Or.inl hq)]
          exact mem_subtrees_self _
        · rintro (⟨u, hu, rfl⟩ | ⟨-, hs⟩)
          · rw [hone hu, expand, if_pos hq]
            exact mem_subtrees_self v
          · exact hs
      · constructor
        · intro hs
          refine Or.inl ⟨_, mem_subtrees_self _, ?_⟩
          rw [expand, if_neg hq, hone hs]
        · rintro (⟨u, hu, rfl⟩ | ⟨hc, -⟩)
          · rw [hone hu, expand, if_neg hq]
            exact mem_subtrees_self _
          · exact absurd (leaf.inj (hone hc)).1.symm hq
  | node q l r ihl ihr =>
      have hnode : s ∈ ((node q l r).expand v).subtrees ↔
          s = (node q l r).expand v ∨ s ∈ (l.expand v).subtrees ∨ s ∈ (r.expand v).subtrees := mem_subtrees_node
      rw [hnode, ihl h.left, ihr h.right]
      constructor
      · rintro (rfl | (⟨u, hu, rfl⟩ | ⟨hc, hs⟩) | (⟨u, hu, rfl⟩ | ⟨hc, hs⟩))
        · exact Or.inl ⟨_, mem_subtrees_self _, rfl⟩
        · exact Or.inl ⟨u, mem_subtrees_node.2 (Or.inr (Or.inl hu)), rfl⟩
        · exact Or.inr ⟨mem_subtrees_node.2 (Or.inr (Or.inl hc)), hs⟩
        · exact Or.inl ⟨u, mem_subtrees_node.2 (Or.inr (Or.inr hu)), rfl⟩
        · exact Or.inr ⟨mem_subtrees_node.2 (Or.inr (Or.inr hc)), hs⟩
      · rintro (⟨u, hu, rfl⟩ | ⟨hc, hs⟩)
        · rcases mem_subtrees_node.1 hu with rfl | hu | hu
          · exact Or.inl rfl
          · exact Or.inr (Or.inl (Or.inl ⟨u, hu, rfl⟩))
          · exact Or.inr (Or.inr (Or.inl ⟨u, hu, rfl⟩))
        · rcases mem_subtrees_node.1 hc with he | hc | hc
          · cases he
          · exact Or.inr (Or.inl (Or.inr ⟨hc, hs⟩))
          · exact Or.inr (Or.inr (Or.inr ⟨hc, hs⟩))

/-- **A tree collapsed and expanded again.** -/
theorem expand_collapse {p : Ptr} {l r : Tree} (hn : t.ptrs.Nodup) (hv : node p l r ∈ t.subtrees) :
    (t.collapse p).expand (node p l r) = t := by
  induction t with
  | leaf => cases List.mem_singleton.1 hv
  | node q l' r' ihl ihr =>
      have hn' := hn
      rw [ptrs, List.nodup_cons, List.mem_append, not_or, List.nodup_append] at hn'
      have hdis := hn'.2.2.2
      unfold collapse
      split_ifs with hq
      · rw [eq_of_ptr_eq hn hv (mem_subtrees_self _) hq.symm, collapsed, expand, if_pos rfl]
      · rcases mem_subtrees_node.1 hv with he | hv | hv
        · cases he
          exact absurd rfl hq
        · have hp : p ∉ r'.ptrs := fun hmem => hdis p (ptr_mem_ptrs hv) p hmem rfl
          rw [expand, ihl hn'.2.1 hv, collapse_of_notMem hp, expand_of_notMem hp]
        · have hp : p ∉ l'.ptrs := fun hmem => hdis p hmem p (ptr_mem_ptrs hv) rfl
          rw [expand, ihr hn'.2.2.1 hv, collapse_of_notMem hp, expand_of_notMem hp]

/-- **The addresses of the expanded tree**: those below the root of `v` are new. -/
theorem ptrs_expand (hn : t.ptrs.Nodup) (hv : v.collapsed ∈ t.subtrees) :
    (t.expand v).ptrs.Perm (t.ptrs ++ v.ptrs.tail) := by
  induction t with
  | leaf q x m =>
      have he := List.mem_singleton.1 hv
      have hq : q = v.ptr := (leaf.inj he).1.symm
      rw [expand, if_pos hq, ptrs, hq]
      cases v <;> exact List.Perm.refl _
  | node q l r ihl ihr =>
      rw [ptrs, List.nodup_cons, List.mem_append, not_or, List.nodup_append] at hn
      have hdis := hn.2.2.2
      rcases mem_subtrees_node.1 hv with he | hv | hv
      · cases he
      · have hp : v.ptr ∉ r.ptrs := fun hmem => hdis _ (ptr_mem_ptrs hv) _ hmem rfl
        rw [expand, expand_of_notMem hp, ptrs, ptrs, List.cons_append, List.append_assoc]
        refine List.Perm.cons q (((ihl hn.2.1 hv).append_right _).trans ?_)
        rw [List.append_assoc]
        exact List.Perm.append_left _ List.perm_append_comm
      · have hp : v.ptr ∉ l.ptrs := fun hmem => hdis _ hmem _ (ptr_mem_ptrs hv) rfl
        rw [expand, expand_of_notMem hp, ptrs, ptrs, List.cons_append, List.append_assoc]
        exact List.Perm.cons q ((ihr hn.2.2.1 hv).append_left _)

/-- A tree without the label of the terminal stays. -/
theorem expand_eq_self (h : v.Fits t.subtrees) (hx : v.least ∉ t.labels) : t.expand v = t := by
  induction t with
  | leaf q x m => exact if_neg fun hq => hx (Finset.mem_singleton.2 (h.eq_iff.1 hq).symm)
  | node q l r ihl ihr =>
      rw [labels, Finset.mem_union, not_or] at hx
      rw [expand, ihl h.left hx.1, ihr h.right hx.2]

/-- The terminal is in the tree that has its label. -/
theorem Fits.collapsed_mem (h : v.Fits t.subtrees) (hx : v.least ∈ t.labels) : v.collapsed ∈ t.subtrees := by
  obtain ⟨q, m, hq⟩ := exists_leaf hx
  rw [← h q _ m hq (Or.inr v.least_mem_labels)]
  exact hq

/-- **The clusters of the expanded tree.** -/
theorem clusters_expand (h : v.Fits t.subtrees) (hmem : v.collapsed ∈ t.subtrees) :
    (t.expand v).clusters = expandAt v.least v.labels v.clusters t.clusters := by
  ext X
  rw [mem_clusters_iff, mem_expandAt]
  constructor
  · rintro ⟨s, hs, rfl⟩
    rcases (mem_subtrees_expand h).1 hs with ⟨u, hu, rfl⟩ | ⟨-, hs⟩
    · exact Or.inl ⟨u.labels, mem_clusters_iff.2 ⟨u, hu, rfl⟩, (labels_expand (h.of_mem hu)).symm⟩
    · exact Or.inr (mem_clusters_iff.2 ⟨s, hs, rfl⟩)
  · rintro (⟨Y, hY, rfl⟩ | hX)
    · obtain ⟨u, hu, rfl⟩ := mem_clusters_iff.1 hY
      exact ⟨_, (mem_subtrees_expand h).2 (Or.inl ⟨u, hu, rfl⟩), labels_expand (h.of_mem hu)⟩
    · obtain ⟨s, hs, rfl⟩ := mem_clusters_iff.1 hX
      exact ⟨s, (mem_subtrees_expand h).2 (Or.inr ⟨hmem, hs⟩), rfl⟩

end Expand

/-- **What the memory holds after the expansion**: the children are hung back under the terminal,
and no other node of the tree changes. -/
theorem Stored.expand {width : ℕ} {h h' : Nodes} {p : Ptr} {l r t : Tree} {parent sibling : Option Ptr}
    (ht : t.Stored width h parent sibling) (hfit : (node p l r).Fits t.subtrees)
    (hnode : ∀ l' r', node p l' r' ∉ t.subtrees)
    (hp : h' p = { h p with leftChild := some l.ptr, rightChild := some r.ptr })
    (hother : ∀ q ∈ t.ptrs, q ≠ p → h' q = h q) (hl : l.Stored width h' (some p) (some r.ptr))
    (hr : r.Stored width h' (some p) (some l.ptr)) : (t.expand (node p l r)).Stored width h' parent sibling := by
  induction t generalizing parent sibling with
  | leaf q x m =>
      unfold Tree.expand
      split_ifs with hq
      · obtain rfl : q = p := hq
        have hroot : h q = record width parent sibling (node q l r).collapsed := by
          rw [← hfit q x m (mem_subtrees_self _) (Or.inl rfl)]
          exact ht
        refine ⟨?_, hl, hr⟩
        rw [hp, hroot, record, subtreeTerminals_collapsed]
        rfl
      · exact (hother q (by simp) hq).trans ht
  | node q l' r' ihl ihr =>
      obtain ⟨hroot, hl', hr'⟩ := ht
      have hsub : ∀ {q'}, q' ∈ l'.ptrs ∨ q' ∈ r'.ptrs → q' ∈ (node q l' r').ptrs := fun hq =>
        List.mem_cons_of_mem _ (List.mem_append.2 hq)
      refine ⟨?_, ?_, ?_⟩
      · have hrec : record width parent sibling ((node q l' r').expand (node p l r)) =
            record width parent sibling (node q l' r') := by
          rw [record, subtreeTerminals_expand hfit]
          simp only [Tree.expand, leftPtr, rightPtr, ptr_expand, record]
        rw [show node q (l'.expand (node p l r)) (r'.expand (node p l r)) =
          (node q l' r').expand (node p l r) from rfl, hrec]
        refine (hother q (by simp) fun hq => ?_).trans hroot
        exact hnode l' r' (hq ▸ mem_subtrees_self _)
      · rw [ptr_expand]
        refine ihl hl' hfit.left (fun a b hab => ?_) fun q' hq' => hother q' (hsub (Or.inl hq'))
        exact hnode a b (mem_subtrees_node.2 (Or.inr (Or.inl hab)))
      · rw [ptr_expand]
        refine ihr hr' hfit.right (fun a b hab => ?_) fun q' hq' => hother q' (hsub (Or.inr hq'))
        exact hnode a b (mem_subtrees_node.2 (Or.inr (Or.inr hab)))

end Tree

namespace Forest

variable {v : Tree} {F G : Forest}

/-- The forest with `v` in the place of the terminal at its address. -/
def expand (v : Tree) (F : Forest) : Forest := F.map (Tree.expand · v)

/-- The trees of an expanded forest. -/
theorem mem_expand {s : Tree} : s ∈ F.expand v ↔ ∃ t ∈ F, t.expand v = s := List.mem_map

/-- The terminals of one tree fit. -/
theorem fits_of_mem (h : v.Fits F.subtrees) {t : Tree} (ht : t ∈ F) : v.Fits t.subtrees :=
  fun q x m hq => h q x m (mem_subtrees.2 ⟨t, ht, hq⟩)

/-- **The subtrees of the expanded forest.** -/
theorem mem_subtrees_expand (h : v.Fits F.subtrees) {s : Tree} : s ∈ (F.expand v).subtrees ↔
    (∃ u ∈ F.subtrees, u.expand v = s) ∨ v.collapsed ∈ F.subtrees ∧ s ∈ v.subtrees := by
  constructor
  · intro hs
    obtain ⟨t', ht', hs⟩ := mem_subtrees.1 hs
    obtain ⟨t, ht, rfl⟩ := mem_expand.1 ht'
    rcases (Tree.mem_subtrees_expand (fits_of_mem h ht)).1 hs with ⟨u, hu, rfl⟩ | ⟨hc, hs⟩
    · exact Or.inl ⟨u, mem_subtrees.2 ⟨t, ht, hu⟩, rfl⟩
    · exact Or.inr ⟨mem_subtrees.2 ⟨t, ht, hc⟩, hs⟩
  · rintro (⟨u, hu, rfl⟩ | ⟨hc, hs⟩)
    · obtain ⟨t, ht, hu⟩ := mem_subtrees.1 hu
      exact mem_subtrees.2 ⟨_, mem_expand.2 ⟨t, ht, rfl⟩,
        (Tree.mem_subtrees_expand (fits_of_mem h ht)).2 (Or.inl ⟨u, hu, rfl⟩)⟩
    · obtain ⟨t, ht, hc⟩ := mem_subtrees.1 hc
      exact mem_subtrees.2 ⟨_, mem_expand.2 ⟨t, ht, rfl⟩,
        (Tree.mem_subtrees_expand (fits_of_mem h ht)).2 (Or.inr ⟨hc, hs⟩)⟩

/-- **The terminals of the expanded forest** are those of `v` and the others. -/
theorem leaf_mem_expand (h : v.Fits F.subtrees) (hmem : v.collapsed ∈ F.subtrees) {q : Ptr} {x : Label}
    {m : Finset Label} : Tree.leaf q x m ∈ (F.expand v).subtrees ↔
      Tree.leaf q x m ∈ v.subtrees ∨ Tree.leaf q x m ∈ F.subtrees ∧ q ≠ v.ptr := by
  rw [mem_subtrees_expand h]
  constructor
  · rintro (⟨u, hu, he⟩ | ⟨-, hs⟩)
    · cases u with
      | leaf q' x' m' =>
          rw [Tree.expand] at he
          split_ifs at he with hq
          · exact Or.inl (he ▸ Tree.mem_subtrees_self _)
          · obtain ⟨rfl, rfl, rfl⟩ := Tree.leaf.inj he
            exact Or.inr ⟨hu, hq⟩
      | node => cases he
    · exact Or.inl hs
  · rintro (hs | ⟨hq, hne⟩)
    · exact Or.inr ⟨hmem, hs⟩
    · exact Or.inl ⟨_, hq, if_neg hne⟩

/-- **The clusters of the expanded forest.** -/
theorem clusters_expand (h : v.Fits F.subtrees) (hmem : v.collapsed ∈ F.subtrees) :
    (F.expand v).clusters = expandAt v.least v.labels v.clusters F.clusters := by
  ext X
  rw [mem_clusters_iff, mem_expandAt]
  constructor
  · rintro ⟨s, hs, rfl⟩
    rcases (mem_subtrees_expand h).1 hs with ⟨u, hu, rfl⟩ | ⟨-, hs⟩
    · obtain ⟨t, ht, hut⟩ := mem_subtrees.1 hu
      exact Or.inl ⟨u.labels, labels_mem_clusters hu, (Tree.labels_expand ((fits_of_mem h ht).of_mem hut)).symm⟩
    · exact Or.inr (Tree.mem_clusters_iff.2 ⟨s, hs, rfl⟩)
  · rintro (⟨Y, hY, rfl⟩ | hX)
    · obtain ⟨u, hu, rfl⟩ := mem_clusters_iff.1 hY
      obtain ⟨t, ht, hut⟩ := mem_subtrees.1 hu
      exact ⟨_, (mem_subtrees_expand h).2 (Or.inl ⟨u, hu, rfl⟩), Tree.labels_expand ((fits_of_mem h ht).of_mem hut)⟩
    · obtain ⟨s, hs, rfl⟩ := Tree.mem_clusters_iff.1 hX
      exact ⟨s, (mem_subtrees_expand h).2 (Or.inr ⟨hmem, hs⟩), rfl⟩

/-- The label of a collapsed subtree is a label of the forest. -/
theorem least_mem_labels (hmem : v.collapsed ∈ F.subtrees) : v.least ∈ F.labels :=
  subset_labels (labels_mem_clusters hmem) (Finset.mem_singleton_self _)

/-- The labels of the expanded forest. -/
theorem labels_expand (h : v.Fits F.subtrees) (hmem : v.collapsed ∈ F.subtrees) :
    (F.expand v).labels = F.labels ∪ v.labels := by
  ext x
  rw [Finset.mem_union, mem_labels, mem_labels]
  constructor
  · rintro ⟨t', ht', hx⟩
    obtain ⟨t, ht, rfl⟩ := mem_expand.1 ht'
    rw [Tree.labels_expand (fits_of_mem h ht)] at hx
    split_ifs at hx
    · exact (Finset.mem_union.1 hx).imp_left fun hx => ⟨t, ht, hx⟩
    · exact Or.inl ⟨t, ht, hx⟩
  · rintro (⟨t, ht, hx⟩ | hx)
    · refine ⟨_, mem_expand.2 ⟨t, ht, rfl⟩, ?_⟩
      rw [Tree.labels_expand (fits_of_mem h ht)]
      split_ifs
      · exact Finset.mem_union_left _ hx
      · exact hx
    · obtain ⟨t, ht, hl⟩ := mem_labels.1 (least_mem_labels hmem)
      refine ⟨_, mem_expand.2 ⟨t, ht, rfl⟩, ?_⟩
      rw [Tree.labels_expand (fits_of_mem h ht), if_pos hl]
      exact Finset.mem_union_right _ hx

/-- **The subtree can stand for its terminal.** -/
theorem expandable (hv : v.Valid) (h : v.Fits F.subtrees) (hmem : v.collapsed ∈ F.subtrees) :
    Expandable F.labels v.least v.labels v.clusters := by
  refine ⟨least_mem_labels hmem, v.least_mem_labels, fun y hy hyv => ?_, Tree.hierarchy hv.distinct⟩
  obtain ⟨q, m, hq⟩ := exists_leaf hy
  exact (Tree.leaf.inj (h q y m hq (Or.inr hyv))).2.1

/-- **The addresses of the expanded forest.** -/
theorem ptrs_expand (hn : F.ptrs.Nodup) (hmem : v.collapsed ∈ F.subtrees) :
    (F.expand v).ptrs.Perm (F.ptrs ++ v.ptrs.tail) := by
  obtain ⟨t, ht, hc⟩ := mem_subtrees.1 hmem
  obtain ⟨A, B, rfl⟩ := List.append_of_mem ht
  rw [ptrs, List.flatMap_append, List.flatMap_cons, List.nodup_append, List.nodup_append] at hn
  obtain ⟨-, ⟨hnt, -, hB⟩, hA⟩ := hn
  have hp := Tree.ptr_mem_ptrs hc
  have same : ∀ u ∈ A ++ B, u.expand v = u := by
    intro u hu
    refine Tree.expand_of_notMem fun hmem => ?_
    rcases List.mem_append.1 hu with hu | hu
    · exact hA _ (List.mem_flatMap.2 ⟨u, hu, hmem⟩) _ (List.mem_append_left _ hp) rfl
    · exact hB _ hp _ (List.mem_flatMap.2 ⟨u, hu, hmem⟩) rfl
  have hAe : A.map (Tree.expand · v) = A :=
    (List.map_congr_left fun u hu => same u (List.mem_append_left _ hu)).trans (List.map_id' A)
  have hBe : B.map (Tree.expand · v) = B :=
    (List.map_congr_left fun u hu => same u (List.mem_append_right _ hu)).trans (List.map_id' B)
  rw [expand, List.map_append, List.map_cons, hAe, hBe]
  simp only [ptrs, List.flatMap_append, List.flatMap_cons, List.append_assoc]
  refine List.Perm.append_left _ (((Tree.ptrs_expand hnt hc).append_right _).trans ?_)
  rw [List.append_assoc]
  exact List.Perm.append_left _ List.perm_append_comm

/-- Expanding keeps a forest valid. -/
theorem Valid.expand (hF : F.Valid) (hv : v.Valid) (h : v.Fits F.subtrees) (hmem : v.collapsed ∈ F.subtrees)
    (hn : v.ptrs.Nodup) (hnew : ∀ q ∈ v.ptrs.tail, q ∉ F.ptrs) : (F.expand v).Valid := by
  refine ⟨fun t' ht' => ?_, List.pairwise_map.2 (hF.disjoint.imp_of_mem fun ht hu hd => ?_),
    List.pairwise_map.2 (hF.sorted.imp_of_mem fun ht hu hd => ?_), ?_⟩
  · obtain ⟨t, ht, rfl⟩ := mem_expand.1 ht'
    exact hv.expand (hF.tree t ht) (fits_of_mem h ht)
  · rwa [Tree.subtreeTerminals_expand (fits_of_mem h ht), Tree.subtreeTerminals_expand (fits_of_mem h hu)]
  · rwa [Tree.least_expand (fits_of_mem h ht), Tree.least_expand (fits_of_mem h hu)]
  · rw [(ptrs_expand hF.nodup hmem).nodup_iff, List.nodup_append]
    refine ⟨hF.nodup, hn.sublist (List.tail_sublist _), ?_⟩
    rintro a ha b hb rfl
    exact hnew a hb ha

/-- **A forest collapsed and expanded again.** -/
theorem expand_collapse (hF : F.Valid) {p : Ptr} {l r : Tree} (hv : Tree.node p l r ∈ F.subtrees) :
    (F.collapse p).expand (.node p l r) = F := by
  obtain ⟨t, ht, hvt⟩ := mem_subtrees.1 hv
  obtain ⟨A, B, rfl⟩ := List.append_of_mem ht
  have hn := hF.nodup
  rw [ptrs, List.flatMap_append, List.flatMap_cons, List.nodup_append, List.nodup_append] at hn
  obtain ⟨-, ⟨hnt, -, hB⟩, hA⟩ := hn
  have hp := Tree.ptr_mem_ptrs hvt
  have same : ∀ u ∈ A ++ B, (u.collapse p).expand (.node p l r) = u := by
    intro u hu
    have hout : p ∉ u.ptrs := by
      intro hmem
      rcases List.mem_append.1 hu with hu | hu
      · exact hA _ (List.mem_flatMap.2 ⟨u, hu, hmem⟩) _ (List.mem_append_left _ hp) rfl
      · exact hB _ hp _ (List.mem_flatMap.2 ⟨u, hu, hmem⟩) rfl
    rw [Tree.collapse_of_notMem hout]
    exact Tree.expand_of_notMem hout
  rw [expand, collapse, List.map_map, List.map_append, List.map_cons]
  have hAe := (List.map_congr_left fun u hu => same u (List.mem_append_left B hu)).trans (List.map_id' A)
  have hBe := (List.map_congr_left fun u hu => same u (List.mem_append_right A hu)).trans (List.map_id' B)
  exact congrArg₂ (· ++ ·) hAe (congrArg₂ (· :: ·) (Tree.expand_collapse hnt hvt) hBe)

/-- The terminals of a collapsed forest fit the subtree. -/
theorem fits_collapse (hF : F.Valid) {p : Ptr} {l r : Tree} (hv : Tree.node p l r ∈ F.subtrees) :
    (Tree.node p l r).Fits (F.collapse p).subtrees := by
  intro q x m hq hor
  rcases (leaf_mem_collapse hF hv).1 hq with he | ⟨hqF, hout⟩
  · exact he
  · rcases hor with rfl | hx
    · exact absurd (Tree.ptr_mem_ptrs (Tree.mem_subtrees_self _)) hout
    · -- a terminal with a label of the subtree lies below its root
      refine absurd ?_ hout
      have hsub := mem_subtrees_of_subset hF.distinct hqF hv (Finset.singleton_subset_iff.2 hx)
      exact Tree.ptr_mem_ptrs hsub

/-- The collapsed subtree is a leaf of the forest it was collapsed in. -/
theorem collapsed_mem_collapse (hF : F.Valid) {p : Ptr} {l r : Tree} (hv : Tree.node p l r ∈ F.subtrees) :
    (Tree.node p l r).collapsed ∈ (F.collapse p).subtrees :=
  (leaf_mem_collapse hF hv).2 (Or.inl rfl)

/-- **The trees of `G` are induced by `F`**: each has the topology that `F` has on its labels. -/
def Induced (F G : Forest) : Prop := ∀ t ∈ G, t.clusters = trace F.clusters t.labels

/-- The trees of a forest are induced by it. -/
theorem Induced.refl (hF : F.Distinct) : F.Induced F := by
  intro t ht
  ext X
  rw [mem_trace]
  constructor
  · intro hX
    exact ⟨Tree.cluster_nonempty hX, X, mem_clusters.2 ⟨t, ht, hX⟩, Finset.inter_eq_left.2 (Tree.subset_labels hX)⟩
  · rintro ⟨⟨x, hx⟩, Y, hY, rfl⟩
    obtain ⟨u, hu, hYu⟩ := mem_clusters.1 hY
    rw [Finset.mem_inter] at hx
    obtain rfl := hF.eq_of_mem ht hu hx.2 (Tree.subset_labels hYu hx.1)
    rwa [Finset.inter_eq_left.2 (Tree.subset_labels hYu)]

/-- What a cut forest induces, the forest induces. -/
theorem Induced.of_cut (hF : F.Valid) {u : Tree} (hu : u ∈ F.subtrees) (h : (F.cut u).Induced G) : F.Induced G := by
  intro t ht
  have hcl := h t ht
  have htop := t.labels_mem_clusters
  rw [hcl, (cut_spec hF hu).2.2] at htop
  obtain ⟨-, Y, hY, hYt⟩ := mem_trace.1 htop
  rw [hcl, (cut_spec hF hu).2.2]
  exact trace_cutAt (hierarchy hF.distinct) (labels_mem_clusters hu) ⟨Y, hY, Finset.inter_eq_right.1 hYt⟩

/-- **Expanded trees are induced by the expanded forest.** -/
theorem Induced.expand (hv : v.Valid) (hF : v.Fits F.subtrees) (hmem : v.collapsed ∈ F.subtrees)
    (hG : v.Fits G.subtrees) (hsub : G.labels ⊆ F.labels) (h : F.Induced G) : (F.expand v).Induced (G.expand v) := by
  intro t' ht'
  obtain ⟨t, ht, rfl⟩ := mem_expand.1 ht'
  have hfit := fits_of_mem hG ht
  have hle : t.labels ⊆ F.labels := fun x hx => hsub (mem_labels.2 ⟨t, ht, hx⟩)
  have hex := expandable hv hF hmem
  rw [clusters_expand hF hmem, Tree.labels_expand hfit]
  split_ifs with hx
  · rw [Tree.clusters_expand hfit (hfit.collapsed_mem hx), h t ht, hex.trace_expandAt (fun X => subset_labels) hle hx]
  · rw [Tree.expand_eq_self hfit hx, h t ht, hex.trace_of_notMem hle hx]

/-- **The trees of `G` are the blocks of `f`.** -/
def HasBlocks {β : Type*} [DecidableEq β] (G : Forest) (f : Label → β) : Prop :=
  ∀ t ∈ G, ∀ x ∈ t.labels, t.labels = G.labels.filter (f · = f x)

/-- **The expanded trees are the blocks**, with the new labels in the block of their terminal. -/
theorem HasBlocks.expand {β : Type*} [DecidableEq β] {f : Label → β} (hv : v.Valid) (hG : v.Fits G.subtrees)
    (hmem : v.collapsed ∈ G.subtrees) (h : G.HasBlocks f) : (G.expand v).HasBlocks (f ∘ into v.least v.labels) := by
  intro t' ht' x hx
  obtain ⟨t, ht, rfl⟩ := mem_expand.1 ht'
  have hex := expandable hv hG hmem
  have hlab := Tree.labels_expand (fits_of_mem hG ht)
  have hle : t.labels ⊆ G.labels := fun x hx => mem_labels.2 ⟨t, ht, hx⟩
  rw [hlab, hex.mem_expanded_iff hle] at hx
  have hblock := h t ht _ hx
  rw [labels_expand hG hmem, hlab, hblock]
  exact (hex.filter_into _).symm

end Forest

namespace Graph.CollapseSubtreeAction

/-- The loop keeps the nodes and the children that are remembered. -/
theorem collapseLabels_frame {L : List Label} {a a' : CollapseSubtreeAction} {s s' : Store}
    (h : collapseLabels L a s = some (a', s')) : s'.nodes = s.nodes ∧ s'.roots = s.roots ∧
      a'.leftChild = a.leftChild ∧ a'.rightChild = a.rightChild := by
  induction L generalizing a s with
  | nil =>
      obtain ⟨rfl, rfl⟩ := Prod.mk.inj (Option.some.inj h)
      exact ⟨rfl, rfl, rfl, rfl⟩
  | cons x L ih =>
      rw [collapseLabels, Option.bind_eq_bind, Option.bind_eq_some_iff] at h
      obtain ⟨⟨a₁, s₁⟩, hstep, hrest⟩ := h
      obtain ⟨hn, hr, hl, hc⟩ := ih hrest
      rw [collapseLabel, Option.bind_eq_bind, Option.bind_eq_some_iff] at hstep
      obtain ⟨q, -, hstep⟩ := hstep
      obtain ⟨rfl, rfl⟩ := Prod.mk.inj (Option.some.inj hstep)
      exact ⟨hn, hr, hl, hc⟩

/-- **What `doAction` remembers**, and what it does to the nodes. -/
theorem of_doAction {p : Ptr} {a : CollapseSubtreeAction} {s s' : Store} (h : doAction p s = some (a, s')) :
    a.leftChild = (s.nodes p).leftChild ∧ a.rightChild = (s.nodes p).rightChild ∧
      a.collapsedLabel = (Bitset.elements (s.nodes p).subtreeTerminals).headD 0 ∧ s'.roots = s.roots ∧
      s'.nodes = s.nodes.modify p fun n => { n with leftChild := none, rightChild := none } := by
  rw [doAction] at h
  dsimp only at h
  rw [Option.bind_eq_bind, Option.bind_eq_some_iff] at h
  obtain ⟨⟨a₁, s₁⟩, hloop, h⟩ := h
  obtain ⟨hn, hr, hl, hc⟩ := collapseLabels_frame hloop
  obtain ⟨rfl, rfl⟩ := Prod.mk.inj (Option.some.inj h)
  exact ⟨hl, hc, rfl, hr, hn.trans (Nodes.takeChildren s.nodes p)⟩

end Graph.CollapseSubtreeAction

namespace Forest

/-- **What cuts leave of a forest**: the forest `F₁` in the memory `s₁` has the terminals of `F`
and no new address, and the nodes off `F` are those of the memory `s`. -/
structure Remnant (width : ℕ) (s : Store) (F : Forest) (s₁ : Store) (F₁ : Forest) : Prop where
  wellFormed : F₁.WellFormed width s₁
  indexed : F₁.Indexed s₁
  leaves : ∀ q x m, Tree.leaf q x m ∈ F₁.subtrees ↔ Tree.leaf q x m ∈ F.subtrees
  ptrs : F₁.ptrs ⊆ F.ptrs
  frame : ∀ q ∉ F.ptrs, s₁.nodes q = s.nodes q

/-- The forest itself. -/
theorem Remnant.refl {width : ℕ} {s : Store} {F : Forest} (hF : F.WellFormed width s) (hI : F.Indexed s) :
    Remnant width s F s F :=
  ⟨hF, hI, fun _ _ _ => Iff.rfl, fun _ h => h, fun _ _ => rfl⟩

section Remnant

variable {width : ℕ} {s s' s₁ : Store} {F F₁ : Forest}

/-- The labels are those of the forest. -/
theorem Remnant.labels (h : Remnant width s F s₁ F₁) : F₁.labels = F.labels := by
  ext x
  simp only [mem_labels_iff_leaf, h.leaves]

/-- The terminals fit what fits the forest. -/
theorem Remnant.fits (h : Remnant width s F s₁ F₁) {v : Tree} (hv : v.Fits F.subtrees) : v.Fits F₁.subtrees :=
  fun q x m hq => hv q x m ((h.leaves q x m).1 hq)

/-- A remnant of the forest still has the collapsed subtree. -/
theorem Remnant.collapsed_mem (h : Remnant width s F s₁ F₁) {v : Tree} (hv : v.collapsed ∈ F.subtrees) :
    v.collapsed ∈ F₁.subtrees := (h.leaves _ _ _).2 hv

/-- **A collapse is undone in what cuts have left** of the collapsed forest: the subtree hangs
where its terminal is now. -/
theorem Remnant.exists_undoCollapse {p : Ptr} {l r : Tree} {a : CollapseSubtreeAction} (hF : F.WellFormed width s)
    (hI : F.Indexed s) (hv : Tree.node p l r ∈ F.subtrees) (hcol : F.Collapse width s p a s')
    (h : Remnant width s' (F.collapse p) s₁ F₁) :
    ∃ s₂, CollapseSubtreeAction.undoAction a s₁ = some s₂ ∧ Remnant width s F s₂ (F₁.expand (.node p l r)) := by
  set v := Tree.node p l r with hvdef
  have hFv := hF.valid
  have hvv : v.Valid := hFv.of_mem_subtrees hv
  have hfit : v.Fits (F.collapse p).subtrees := fits_collapse hFv hv
  have hmem : v.collapsed ∈ (F.collapse p).subtrees := collapsed_mem_collapse hFv hv
  have hfit₁ := h.fits hfit
  have hmem₁ := h.collapsed_mem hmem
  obtain ⟨hl, hr, hlab, hroots, hnodes⟩ := CollapseSubtreeAction.of_doAction hcol.done
  obtain ⟨t, ht, hvt⟩ := mem_subtrees.1 hv
  obtain ⟨parent, sibling, hroot, hls, hrs⟩ := (hF.stored.trees t ht).of_mem hvt
  have hwords : Within width v.subtreeTerminals :=
    (hF.within t ht).mono (Tree.subtreeTerminals_subset_of_mem_subtrees hvt)
  -- the addresses below the collapsed node are off the collapsed forest
  have hperm : F.ptrs.Perm ((F.collapse p).ptrs ++ (l.ptrs ++ r.ptrs)) := by
    have := Forest.ptrs_expand (v := v) (hFv.collapse p).nodup hmem
    rwa [expand_collapse hFv hv] at this
  have hdis := List.nodup_append.1 ((hperm.nodup_iff).1 hFv.nodup)
  have hbelow : ∀ q ∈ l.ptrs ++ r.ptrs, q ∉ (F.collapse p).ptrs ∧ q ≠ p := by
    intro q hq
    have hqF : q ∉ (F.collapse p).ptrs := fun hqF => hdis.2.2 q hqF q hq rfl
    refine ⟨hqF, ?_⟩
    rintro rfl
    refine hqF ?_
    rw [← map_ptr_subtrees]
    exact List.mem_map_of_mem hmem
  have hkept : ∀ q ∈ l.ptrs ++ r.ptrs, s₁.nodes q = s.nodes q := by
    intro q hq
    obtain ⟨hqF, hqp⟩ := hbelow q hq
    rw [h.frame q hqF, hnodes, Nodes.modify_of_ne _ _ hqp]
  -- the maps are those that the collapse left
  have hmapL : s₁.labelToTerminal = s'.labelToTerminal := by
    refine funext fun x => Option.ext fun q => ?_
    rw [h.indexed.labelToTerminal, hcol.indexed.labelToTerminal]
    simp only [h.leaves]
  have hmapT : s₁.terminalToLabel = s'.terminalToLabel := by
    refine funext fun q => Option.ext fun x => ?_
    rw [h.indexed.terminalToLabel, hcol.indexed.terminalToLabel]
    simp only [h.leaves]
  have hleft : a.leftChild = some l.ptr := by
    rw [hl, hroot]
    rfl
  have hright : a.rightChild = some r.ptr := by
    rw [hr, hroot]
    rfl
  have hlabel : a.collapsedLabel = v.least := by
    rw [hlab, hroot]
    exact headD_elements hvv hwords
  have hfound : s'.labelToTerminal a.collapsedLabel = some p := by
    rw [hlabel]
    exact (hcol.indexed.labelToTerminal p v.least).2 ⟨_, _, hmem, Finset.mem_insert_self ..⟩
  have hundone := hcol.undone
  rw [CollapseSubtreeAction.undoAction, hfound, hleft, hright] at hundone
  simp only [Option.bind_eq_bind, Option.bind_some, Option.some.injEq] at hundone
  -- the children already have their parent
  have hlp : (s₁.nodes l.ptr).parent = some p := by
    rw [hkept _ (List.mem_append_left _ (Tree.ptr_mem_ptrs (Tree.mem_subtrees_self l))), hls.root]
    rfl
  have hrp : (s₁.nodes r.ptr).parent = some p := by
    rw [hkept _ (List.mem_append_right _ (Tree.ptr_mem_ptrs (Tree.mem_subtrees_self r))), hrs.root]
    rfl
  have hlne := (hbelow _ (List.mem_append_left _ (Tree.ptr_mem_ptrs (Tree.mem_subtrees_self l)))).2
  have hrne := (hbelow _ (List.mem_append_right _ (Tree.ptr_mem_ptrs (Tree.mem_subtrees_self r)))).2
  set h₂ : Nodes := s₁.nodes.modify p fun n => { n with leftChild := some l.ptr, rightChild := some r.ptr } with hh₂
  have hhere : h₂ p = { s₁.nodes p with leftChild := some l.ptr, rightChild := some r.ptr } := Nodes.modify_self ..
  have hbeside : ∀ q, q ≠ p → h₂ q = s₁.nodes q := fun q hq => by rw [hh₂, Nodes.modify_of_ne _ _ hq]
  have hh₂l : (h₂ l.ptr).parent = some p := by rw [hbeside _ hlne, hlp]
  have hh₂r : (h₂ r.ptr).parent = some p := by rw [hbeside _ hrne, hrp]
  have hstays : ∀ q ∈ l.ptrs ++ r.ptrs, h₂ q = s.nodes q := fun q hq => by
    rw [hbeside q (hbelow q hq).2, hkept q hq]
  have hundo : CollapseSubtreeAction.undoAction a s₁ = some { s with nodes := h₂, roots := s₁.roots } := by
    rw [CollapseSubtreeAction.undoAction, hmapL, hmapT, hfound, hleft, hright]
    simp only [Option.bind_eq_bind, Option.bind_some, Option.some.injEq, ← hundone]
    refine Store.ext ?_ rfl rfl rfl
    dsimp only
    rw [Nodes.setLeftChild, Nodes.setRightChild, Nodes.modify_modify, ← hh₂, Nodes.setParent_eq_self hh₂l,
      Nodes.setParent_eq_self hh₂r]
  have hexp : (F₁.expand v).Valid :=
    h.wellFormed.valid.expand hvv hfit₁ hmem₁ (List.nodup_cons.2 ⟨fun hp => (hbelow p hp).2 rfl, hdis.2.1⟩)
      fun q hq hqF => (hbelow q hq).1 (h.ptrs hqF)
  have hleaves : ∀ q x m, Tree.leaf q x m ∈ (F₁.expand v).subtrees ↔ Tree.leaf q x m ∈ F.subtrees := by
    intro q x m
    have hF' := leaf_mem_expand hfit hmem (q := q) (x := x) (m := m)
    rw [expand_collapse hFv hv] at hF'
    rw [leaf_mem_expand hfit₁ hmem₁, hF', h.leaves]
  refine ⟨_, hundo, ⟨hexp, fun t' ht' => ?_, ?_, fun t' ht' => ?_⟩, ?_, fun q x m => ?_, ?_, fun q hq => ?_⟩
  · obtain ⟨u, hu, rfl⟩ := mem_expand.1 ht'
    rw [Tree.subtreeTerminals_expand (fits_of_mem hfit₁ hu)]
    exact h.wellFormed.within u hu
  · rw [h.wellFormed.stored.roots, expand, List.map_map]
    exact List.map_congr_left fun u _ => (Tree.ptr_expand u v).symm
  · obtain ⟨u, hu, rfl⟩ := mem_expand.1 ht'
    refine (h.wellFormed.stored.trees u hu).expand (fits_of_mem hfit₁ hu) (fun l' r' hmem' => ?_)
      hhere (fun q _ hq => hbeside q hq) ?_ ?_
    · cases eq_of_ptr_eq h.wellFormed.valid.nodup (mem_subtrees.2 ⟨u, hu, hmem'⟩) hmem₁ rfl
    · exact hls.congr fun q hq => hstays q (List.mem_append_left _ hq)
    · exact hrs.congr fun q hq => hstays q (List.mem_append_right _ hq)
  · exact hI.congr rfl rfl hleaves
  · exact hleaves q x m
  · intro q hq
    rcases List.mem_append.1 ((Forest.ptrs_expand h.wellFormed.valid.nodup hmem₁).subset hq) with hq | hq
    · exact hperm.symm.subset (List.mem_append_left _ (h.ptrs hq))
    · exact hperm.symm.subset (List.mem_append_right _ hq)
  · have hqc : q ∉ (F.collapse p).ptrs := fun hmem' => hq (hperm.symm.subset (List.mem_append_left _ hmem'))
    have hqp : q ≠ p := by
      rintro rfl
      refine hq ?_
      rw [← map_ptr_subtrees]
      exact List.mem_map_of_mem hv
    show h₂ q = s.nodes q
    rw [hbeside q hqp, h.frame q hqc, hnodes, Nodes.modify_of_ne _ _ hqp]

end Remnant

end Forest

end Maf
