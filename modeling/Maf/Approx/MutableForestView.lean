/-
# The mutable view of a forest

`src/Solver/Approximation/MutableForestView.hpp`.  A view is a copy of a forest
whose nodes are numbered in pre-order.  The shape is kept twice, in the links of
the nodes and in arrays over their numbers; `cut` detaches an edge in both, and
`refreshCounts` counts active leaves below every node in one sweep over the
arrays.

`CutAt F K v` says that `v` is the view of `F` with the edges above the nodes `K`
cut.  Under it the links of `v` lead up exactly as far as the next cut
(`CutAt.anc_iff`), the roots tell the components apart (`CutAt.root_eq_iff`), and
a count is the number of active leaves that reach the node (`CutAt.counts_eq`).
-/

import Maf.Approx.Duality
import Maf.ParentWalk
import Maf.Tree

namespace Maf
namespace Approx

open ParentWalk

/-- The nodes of a tree in the order in which the constructor pops them from its
stack: a node, then its right and then its left subtree. -/
def preOrder : Tree → List Tree
  | .leaf p l m => [.leaf p l m]
  | .node p l r => .node p l r :: (preOrder r ++ preOrder l)

/-- `leftChild` of a node. -/
def leftPtr : Tree → Option Ptr
  | .leaf .. => none
  | .node _ l _ => some l.ptr

/-- `rightChild` of a node. -/
def rightPtr : Tree → Option Ptr
  | .leaf .. => none
  | .node _ _ r => some r.ptr

/-- The label of a leaf; `0` at an inner node. -/
def leafLabel : Tree → Label
  | .leaf _ l _ => l
  | .node .. => 0

/-- A forest with its nodes numbered: the links of the nodes, and the arrays that
mirror them.  `none` is `nullptr` among nodes and `NO_NODE` among numbers. -/
structure MutableForestView where
  nodes : List Ptr
  nodeOf : Label → Option Ptr
  labelOf : ℕ → Label
  parent : Ptr → Option Ptr
  leftChild : Ptr → Option Ptr
  rightChild : Ptr → Option Ptr
  parentIdx : ℕ → Option ℕ
  leftIdx : ℕ → Option ℕ
  rightIdx : ℕ → Option ℕ
  counts : ℕ → ℕ

namespace MutableForestView

/-- The number of a node, its position in `nodes`. -/
def indexOf (v : MutableForestView) (p : Ptr) : ℕ := v.nodes.idxOf p

/-- The constructor: the view of a forest without collapsed leaves. -/
def ofForest (F : Forest) : MutableForestView :=
  let subs := F.flatMap preOrder
  let nodes := subs.map Tree.ptr
  let parent := fun c =>
    (subs.find? fun s => decide (leftPtr s = some c ∨ rightPtr s = some c)).map Tree.ptr
  let leftChild := fun p => (subs.find? fun s => decide (s.ptr = p)).bind leftPtr
  let rightChild := fun p => (subs.find? fun s => decide (s.ptr = p)).bind rightPtr
  { nodes := nodes
    nodeOf := fun x =>
      (subs.find? fun s => decide (s.isTerminal ∧ leafLabel s = x)).map Tree.ptr
    labelOf := fun i => (subs[i]?.map leafLabel).getD 0
    parent := parent
    leftChild := leftChild
    rightChild := rightChild
    parentIdx := fun i => (nodes[i]?.bind parent).map nodes.idxOf
    leftIdx := fun i => (nodes[i]?.bind leftChild).map nodes.idxOf
    rightIdx := fun i => (nodes[i]?.bind rightChild).map nodes.idxOf
    counts := fun _ => 0 }

/-- `cut`: detaches the edge above `n` in the links and in the arrays. -/
def cut (v : MutableForestView) (n : Ptr) : MutableForestView :=
  match v.parent n with
  | none => v
  | some p =>
      let a := v.indexOf n
      let pi := v.indexOf p
      let v :=
        if v.leftChild p = some n then
          { v with
            leftChild := Function.update v.leftChild p none
            leftIdx := Function.update v.leftIdx pi none }
        else if v.rightChild p = some n then
          { v with
            rightChild := Function.update v.rightChild p none
            rightIdx := Function.update v.rightIdx pi none }
        else v
      { v with
        parent := Function.update v.parent n none
        parentIdx := Function.update v.parentIdx a none }

/-- `refreshCounts`: the number of active leaves below every node. -/
def refreshCounts (v : MutableForestView) (active : Finset Label) : MutableForestView :=
  { v with
    counts := sweep v.parentIdx v.nodes.length fun i =>
      if v.labelOf i ≠ 0 ∧ v.labelOf i ∈ active then 1 else 0 }

/-- `countAt`. -/
def countAt (v : MutableForestView) : Option ℕ → ℕ
  | none => 0
  | some i => v.counts i

/-- The count of a node. -/
def count (v : MutableForestView) (p : Ptr) : ℕ := v.counts (v.indexOf p)

/-- `rootOf`; a path has at most as many nodes as the forest. -/
def rootOf (v : MutableForestView) (n : Ptr) : Ptr := ParentWalk.rootOf v.parent v.nodes.length n

/-- `lca` in the current forest; `none` for nodes in different components. -/
def lca (v : MutableForestView) (a b : Ptr) : Option Ptr :=
  ParentWalk.lca v.parent v.nodes.length a b

end MutableForestView

/-! The uncut view. -/

/-- A forest whose nodes have different addresses and whose leaves have different
labels other than `0`. -/
structure WellFormed (F : Forest) : Prop where
  distinct : F.Distinct
  nodup : F.ptrs.Nodup
  label_ne : ∀ x ∈ F.labels, x ≠ 0

/-- The nodes in preorder are the subtrees. -/
theorem mem_preOrder {s t : Tree} : s ∈ preOrder t ↔ s ∈ t.subtrees := by
  induction t with
  | leaf p l m => rfl
  | node p l r ihl ihr =>
      simp only [preOrder, List.mem_cons, List.mem_append, ihl, ihr, Tree.mem_subtrees_node]
      tauto

/-- The preorder lists every node once. -/
theorem perm_preOrder (t : Tree) : ((preOrder t).map Tree.ptr).Perm t.ptrs := by
  induction t with
  | leaf p l m => exact List.Perm.refl _
  | node p l r ihl ihr =>
      simp only [preOrder, List.map_cons, List.map_append, Tree.ptrs, Tree.ptr]
      exact ((ihr.append ihl).trans List.perm_append_comm).cons p

/-- The nodes of a forest in preorder are its subtrees. -/
theorem mem_flatMap_preOrder {F : Forest} {s : Tree} : s ∈ F.flatMap preOrder ↔ s ∈ F.subtrees := by
  simp [Forest.mem_subtrees, mem_preOrder]

/-- What a search by a decidable property finds. -/
theorem find_spec {γ : Type*} {P : γ → Prop} [DecidablePred P] {L : List γ} {x : γ}
    (h : L.find? (fun y => decide (P y)) = some x) : x ∈ L ∧ P x :=
  ⟨List.mem_of_find?_eq_some h, by simpa using List.find?_some h⟩

/-- A search finds something when there is something to find. -/
theorem exists_find {γ : Type*} {P : γ → Prop} [DecidablePred P] {L : List γ} {x : γ} (hx : x ∈ L)
    (hP : P x) : ∃ y, L.find? (fun y => decide (P y)) = some y :=
  Option.isSome_iff_exists.1 (List.find?_isSome.2 ⟨x, hx, decide_eq_true hP⟩)

namespace MutableForestView

variable {F : Forest}

/-- The nodes of a new view are those of the forest in preorder. -/
theorem nodes_ofForest : (ofForest F).nodes = (F.flatMap preOrder).map Tree.ptr := rfl

/-- No node is listed twice. -/
theorem nodup_nodes (hF : WellFormed F) : (ofForest F).nodes.Nodup := by
  have hperm : (ofForest F).nodes.Perm F.ptrs := by
    rw [nodes_ofForest, List.map_flatMap, Forest.ptrs]
    exact List.Perm.flatMap_left F fun t _ => perm_preOrder t
  exact hperm.nodup_iff.2 hF.nodup

/-- The nodes of a new view are those of the forest. -/
theorem mem_nodes {p : Ptr} : p ∈ (ofForest F).nodes ↔ ∃ s ∈ F.subtrees, s.ptr = p := by
  rw [nodes_ofForest, List.mem_map]
  simp only [mem_flatMap_preOrder]

/-- The node at an address is found. -/
theorem find_ptr (hF : WellFormed F) {s : Tree} (hs : s ∈ F.subtrees) :
    (F.flatMap preOrder).find? (fun u => decide (u.ptr = s.ptr)) = some s := by
  obtain ⟨u, hu⟩ := exists_find (P := fun u : Tree => u.ptr = s.ptr) (mem_flatMap_preOrder.2 hs) rfl
  obtain ⟨hmem, hptr⟩ := find_spec hu
  rw [hu, Forest.eq_of_ptr_eq hF.nodup (mem_flatMap_preOrder.1 hmem) hs hptr]

/-- The left children of a new view are those of the forest. -/
theorem leftChild_ofForest (hF : WellFormed F) {p c : Ptr} :
    (ofForest F).leftChild p = some c ↔ ∃ l r, Tree.node p l r ∈ F.subtrees ∧ l.ptr = c := by
  constructor
  · intro h
    obtain ⟨s, hs, hc⟩ := Option.bind_eq_some_iff.1 h
    obtain ⟨hmem, rfl⟩ := find_spec hs
    cases s with
    | leaf => cases hc
    | node q l r => exact ⟨l, r, mem_flatMap_preOrder.1 hmem, Option.some.inj hc⟩
  · rintro ⟨l, r, hs, rfl⟩
    exact Option.bind_eq_some_iff.2 ⟨_, find_ptr hF hs, rfl⟩

/-- The right children of a new view are those of the forest. -/
theorem rightChild_ofForest (hF : WellFormed F) {p c : Ptr} :
    (ofForest F).rightChild p = some c ↔ ∃ l r, Tree.node p l r ∈ F.subtrees ∧ r.ptr = c := by
  constructor
  · intro h
    obtain ⟨s, hs, hc⟩ := Option.bind_eq_some_iff.1 h
    obtain ⟨hmem, rfl⟩ := find_spec hs
    cases s with
    | leaf => cases hc
    | node q l r => exact ⟨l, r, mem_flatMap_preOrder.1 hmem, Option.some.inj hc⟩
  · rintro ⟨l, r, hs, rfl⟩
    exact Option.bind_eq_some_iff.2 ⟨_, find_ptr hF hs, rfl⟩

/-- A node has one parent. -/
theorem parent_unique (hF : WellFormed F) {q q' : Ptr} {l r l' r' : Tree}
    (hs : Tree.node q l r ∈ F.subtrees) (hs' : Tree.node q' l' r' ∈ F.subtrees) {c : Ptr}
    (hc : l.ptr = c ∨ r.ptr = c) (hc' : l'.ptr = c ∨ r'.ptr = c) :
    Tree.node q l r = Tree.node q' l' r' := by
  -- the two nodes share a child, so one lies below the other, and properly so only below a child
  have key : ∀ {q q' l r l' r' d d'}, Tree.node q l r ∈ F.subtrees → Tree.node q' l' r' ∈ F.subtrees →
      (d = l ∨ d = r) → (d' = l' ∨ d' = r') → d = d' →
      (Tree.node q l r).labels ⊆ (Tree.node q' l' r').labels →
      Tree.node q l r = Tree.node q' l' r' := by
    intro q q' l r l' r' d d' hs hs' hd hd' hdd hsub
    have hD := hF.distinct.of_mem_subtrees hs
    have hD' := hF.distinct.of_mem_subtrees hs'
    have hdl : d.labels ⊆ (Tree.node q l r).labels := by
      rcases hd with rfl | rfl
      · exact Finset.subset_union_left
      · exact Finset.subset_union_right
    have hdin : d ∈ l.subtrees ∨ d ∈ r.subtrees := by
      rcases hd with rfl | rfl
      · exact Or.inl (Tree.mem_subtrees_self _)
      · exact Or.inr (Tree.mem_subtrees_self _)
    obtain ⟨x, hx⟩ := d.labels_nonempty
    rcases Tree.mem_subtrees_node.1 (Forest.mem_subtrees_of_subset hF.distinct hs hs' hsub) with
      h | h | h
    · exact h
    · exfalso
      have hle := Tree.labels_subset_of_mem_subtrees h
      rcases hd' with rfl | rfl
      · exact Tree.not_labels_subset_child hD hdin (hdd ▸ hle)
      · exact Finset.disjoint_left.1 hD'.2.2 (hle (hdl hx)) (hdd ▸ hx)
    · exfalso
      have hle := Tree.labels_subset_of_mem_subtrees h
      rcases hd' with rfl | rfl
      · exact Finset.disjoint_left.1 hD'.2.2 (hdd ▸ hx) (hle (hdl hx))
      · exact Tree.not_labels_subset_child hD hdin (hdd ▸ hle)
  obtain ⟨hl, hr⟩ := Forest.mem_subtrees_children hs
  obtain ⟨hl', hr'⟩ := Forest.mem_subtrees_children hs'
  obtain ⟨d, hd, hdp, hdF⟩ : ∃ d, (d = l ∨ d = r) ∧ d.ptr = c ∧ d ∈ F.subtrees :=
    hc.elim (fun h => ⟨l, Or.inl rfl, h, hl⟩) fun h => ⟨r, Or.inr rfl, h, hr⟩
  obtain ⟨d', hd', hdp', hdF'⟩ : ∃ d, (d = l' ∨ d = r') ∧ d.ptr = c ∧ d ∈ F.subtrees :=
    hc'.elim (fun h => ⟨l', Or.inl rfl, h, hl'⟩) fun h => ⟨r', Or.inr rfl, h, hr'⟩
  have hdd : d = d' := Forest.eq_of_ptr_eq hF.nodup hdF hdF' (hdp.trans hdp'.symm)
  obtain ⟨x, hx⟩ := d.labels_nonempty
  have mem : ∀ {q l r}, (d = l ∨ d = r) → x ∈ (Tree.node q l r).labels := fun h =>
    h.elim (fun h => Finset.mem_union_left _ (h ▸ hx)) fun h => Finset.mem_union_right _ (h ▸ hx)
  rcases (Forest.hierarchy hF.distinct).nested_of_mem (Forest.mem_clusters_iff.2 ⟨_, hs, rfl⟩)
    (Forest.mem_clusters_iff.2 ⟨_, hs', rfl⟩) (mem hd) (mem (hdd ▸ hd')) with h | h
  · exact key hs hs' hd hd' hdd h
  · exact (key hs' hs hd' hd hdd.symm h).symm

/-- The parents of a new view are those of the forest. -/
theorem parent_ofForest (hF : WellFormed F) {c q : Ptr} :
    (ofForest F).parent c = some q ↔
      ∃ l r, Tree.node q l r ∈ F.subtrees ∧ (l.ptr = c ∨ r.ptr = c) := by
  constructor
  · intro h
    obtain ⟨s, hs, rfl⟩ := Option.map_eq_some_iff.1 h
    obtain ⟨hmem, hc⟩ := find_spec hs
    cases s with
    | leaf => rcases hc with hc | hc <;> cases hc
    | node q l r =>
        exact ⟨l, r, mem_flatMap_preOrder.1 hmem, hc.imp Option.some.inj Option.some.inj⟩
  · rintro ⟨l, r, hs, hc⟩
    obtain ⟨u, hu⟩ := exists_find (P := fun u : Tree => leftPtr u = some c ∨ rightPtr u = some c)
      (mem_flatMap_preOrder.2 hs) (hc.imp (congrArg some) (congrArg some))
    obtain ⟨hmem, hc'⟩ := find_spec hu
    refine Option.map_eq_some_iff.2 ⟨u, hu, ?_⟩
    cases u with
    | leaf => rcases hc' with hc' | hc' <;> cases hc'
    | node q' l' r' =>
        have := parent_unique hF (mem_flatMap_preOrder.1 hmem) hs (hc'.imp Option.some.inj Option.some.inj) hc
        exact congrArg Tree.ptr this

/-- In a list without repetition the first of two elements in order has the smaller
position. -/
theorem idxOf_lt_of_sublist {L : List Ptr} (hL : L.Nodup) {a b : Ptr} (h : [a, b].Sublist L) :
    L.idxOf a < L.idxOf b := by
  induction L with
  | nil => cases h
  | cons x L ih =>
      have hx := (List.nodup_cons.1 hL).1
      cases h with
      | cons _ h =>
          have ha : a ∈ L := h.subset (by simp)
          have hb : b ∈ L := h.subset (by simp)
          rw [List.idxOf_cons_ne _ (ne_of_mem_of_not_mem ha hx).symm,
            List.idxOf_cons_ne _ (ne_of_mem_of_not_mem hb hx).symm]
          exact Nat.succ_lt_succ (ih (List.nodup_cons.1 hL).2 h)
      | cons_cons _ h =>
          have hb : b ∈ L := h.subset (by simp)
          rw [List.idxOf_cons_self, List.idxOf_cons_ne _ (ne_of_mem_of_not_mem hb hx).symm]
          exact Nat.succ_pos _

/-- Pre-order lists a node before its children. -/
theorem sublist_preOrder {t : Tree} {q c : Ptr} {l r : Tree} (hs : Tree.node q l r ∈ t.subtrees)
    (hc : l.ptr = c ∨ r.ptr = c) : [q, c].Sublist ((preOrder t).map Tree.ptr) := by
  induction t with
  | leaf p x m => cases List.mem_singleton.1 hs
  | node p l' r' ihl ihr =>
      simp only [preOrder, List.map_cons, List.map_append]
      rcases Tree.mem_subtrees_node.1 hs with h | h | h
      · cases h
        have hmem : c ∈ (preOrder r).map Tree.ptr ++ (preOrder l).map Tree.ptr := by
          rw [List.mem_append, List.mem_map, List.mem_map]
          rcases hc with rfl | rfl
          · exact Or.inr ⟨l, mem_preOrder.2 l.mem_subtrees_self, rfl⟩
          · exact Or.inl ⟨r, mem_preOrder.2 r.mem_subtrees_self, rfl⟩
        exact (List.singleton_sublist.2 hmem).cons_cons q
      · exact ((ihl h).trans (List.sublist_append_right _ _)).cons _
      · exact ((ihr h).trans (List.sublist_append_left _ _)).cons _

/-- A parent has a smaller number than its children. -/
theorem indexOf_parent_lt (hF : WellFormed F) {c q : Ptr} (h : (ofForest F).parent c = some q) :
    (ofForest F).indexOf q < (ofForest F).indexOf c := by
  obtain ⟨l, r, hs, hc⟩ := (parent_ofForest hF).1 h
  obtain ⟨t, ht, hs⟩ := Forest.mem_subtrees.1 hs
  refine idxOf_lt_of_sublist (nodup_nodes hF) ((sublist_preOrder hs hc).trans ?_)
  rw [nodes_ofForest, List.flatMap_def]
  exact (List.sublist_flatten_of_mem (List.mem_map_of_mem ht)).map _

/-- The label set below a node. -/
def cluster (F : Forest) (p : Ptr) : Finset Label :=
  (F.subtrees.find? fun s => decide (s.ptr = p)).elim ∅ Tree.labels

/-- The cluster of a node is its labels. -/
theorem cluster_ptr (hF : WellFormed F) {s : Tree} (hs : s ∈ F.subtrees) :
    cluster F s.ptr = s.labels := by
  obtain ⟨u, hu⟩ := exists_find (P := fun u : Tree => u.ptr = s.ptr) hs rfl
  obtain ⟨hmem, hptr⟩ := find_spec hu
  rw [cluster, hu, Forest.eq_of_ptr_eq hF.nodup hmem hs hptr]
  rfl

/-- A node reaches the root of every subtree it lies in. -/
theorem anc_of_mem_subtrees (hF : WellFormed F) {s u : Tree} (hu : u ∈ F.subtrees)
    (h : s ∈ u.subtrees) : Anc (ofForest F).parent s.ptr u.ptr := by
  induction u with
  | leaf p x m => rw [List.mem_singleton.1 h]
  | node q l r ihl ihr =>
      obtain ⟨hl, hr⟩ := Forest.mem_subtrees_children hu
      rcases Tree.mem_subtrees_node.1 h with rfl | h | h
      · exact .refl
      · exact (ihl hl h).tail ((parent_ofForest hF).2 ⟨l, r, hu, Or.inl rfl⟩)
      · exact (ihr hr h).tail ((parent_ofForest hF).2 ⟨l, r, hu, Or.inr rfl⟩)

/-- **In the uncut view the ancestors of a node are the nodes around its
labels.** -/
theorem anc_ofForest_iff (hF : WellFormed F) {s u : Tree} (hs : s ∈ F.subtrees)
    (hu : u ∈ F.subtrees) : Anc (ofForest F).parent s.ptr u.ptr ↔ s.labels ⊆ u.labels := by
  constructor
  · intro h
    have key : ∀ {p q : Ptr}, Anc (ofForest F).parent p q → cluster F p ⊆ cluster F q := by
      intro p q h
      induction h with
      | refl => exact Finset.Subset.refl _
      | tail _ hstep ih =>
          obtain ⟨l, r, hs, hc⟩ := (parent_ofForest hF).1 hstep
          obtain ⟨hl, hr⟩ := Forest.mem_subtrees_children hs
          refine ih.trans ?_
          have hq := cluster_ptr hF hs
          rw [Tree.ptr] at hq
          rw [hq]
          rcases hc with rfl | rfl
          · rw [cluster_ptr hF hl]; exact Finset.subset_union_left
          · rw [cluster_ptr hF hr]; exact Finset.subset_union_right
    rw [← cluster_ptr hF hs, ← cluster_ptr hF hu]
    exact key h
  · exact fun h => anc_of_mem_subtrees hF hu (Forest.mem_subtrees_of_subset hF.distinct hs hu h)

/-- The parent links of a forest are grounded. -/
theorem exists_grounded_ofForest (hF : WellFormed F) :
    ∃ ht, Grounded (ofForest F).parent ht := by
  obtain ⟨ht, h, -⟩ := @exists_grounded _ (ofForest F).parent (ofForest F).indexOf
    fun p q h => indexOf_parent_lt hF h
  exact ⟨ht, h⟩

/-! The view after cuts. -/

/-- `v` is the view of `F` with the edges above the nodes `K` cut, in the links and
in the arrays that mirror them. -/
structure CutAt (F : Forest) (K : Finset Ptr) (v : MutableForestView) : Prop where
  cuts_mem : ∀ k ∈ K, k ∈ (ofForest F).nodes
  nodes : v.nodes = (ofForest F).nodes
  nodeOf : v.nodeOf = (ofForest F).nodeOf
  labelOf : v.labelOf = (ofForest F).labelOf
  parent : ∀ c, v.parent c = if c ∈ K then none else (ofForest F).parent c
  leftChild : ∀ q, v.leftChild q = ((ofForest F).leftChild q).filter (· ∉ K)
  rightChild : ∀ q, v.rightChild q = ((ofForest F).rightChild q).filter (· ∉ K)
  parentIdx : ∀ i, v.parentIdx i = (v.nodes[i]?.bind v.parent).map v.indexOf
  leftIdx : ∀ i, v.leftIdx i = (v.nodes[i]?.bind v.leftChild).map v.indexOf
  rightIdx : ∀ i, v.rightIdx i = (v.nodes[i]?.bind v.rightChild).map v.indexOf

/-- In a new view nothing is cut. -/
theorem cutAt_ofForest (F : Forest) : CutAt F ∅ (ofForest F) := by
  have hnone : ∀ x : Option Ptr, x = x.filter (· ∉ (∅ : Finset Ptr)) := fun x => by
    cases x <;> simp [Option.filter]
  exact ⟨by simp, rfl, rfl, rfl, fun c => by simp, fun q => hnone _, fun q => hnone _, fun i => rfl,
    fun i => rfl, fun i => rfl⟩

/-- Refreshing the counts cuts nothing. -/
theorem CutAt.refreshCounts {K : Finset Ptr} {v : MutableForestView} (h : CutAt F K v)
    (active : Finset Label) : CutAt F K (v.refreshCounts active) :=
  ⟨h.cuts_mem, h.nodes, h.nodeOf, h.labelOf, h.parent, h.leftChild, h.rightChild, h.parentIdx, h.leftIdx,
    h.rightIdx⟩

/-- One more cut does not concern the other nodes. -/
theorem filter_insert_of_ne {K : Finset Ptr} {n : Ptr} {x : Option Ptr} (h : x ≠ some n) :
    x.filter (· ∉ insert n K) = x.filter (· ∉ K) := by
  cases x with
  | none => rfl
  | some c =>
      have hcn : c ≠ n := fun he => h (congrArg some he)
      simp [Option.filter, hcn]

/-- The node that is cut has no link any more. -/
theorem filter_insert_self {K : Finset Ptr} {n : Ptr} :
    (some n).filter (· ∉ insert n K) = none := by
  simp [Option.filter]

/-- The two children of a node have different addresses. -/
theorem left_ne_right (hF : WellFormed F) {q : Ptr} {l r : Tree}
    (hs : Tree.node q l r ∈ F.subtrees) : l.ptr ≠ r.ptr := by
  intro h
  obtain ⟨hl, hr⟩ := Forest.mem_subtrees_children hs
  have hlr := Forest.eq_of_ptr_eq hF.nodup hl hr h
  obtain ⟨x, hx⟩ := l.labels_nonempty
  exact Finset.disjoint_left.1 (hF.distinct.of_mem_subtrees hs).2.2 hx (hlr ▸ hx)

/-- The index of a node is where it is listed. -/
theorem getElem?_indexOf {L : List Ptr} {n : Ptr} (hL : L.Nodup) (hn : n ∈ L) {i : ℕ} :
    L[i]? = some n ↔ i = L.idxOf n := by
  have hself : L[L.idxOf n]? = some n := by
    rw [List.getElem?_eq_getElem (List.idxOf_lt_length_iff.2 hn), List.getElem_idxOf]
  constructor
  · intro h
    obtain ⟨hi, -⟩ := List.getElem?_eq_some_iff.1 h
    exact (List.getElem?_inj hi hL).1 (h.trans hself.symm)
  · rintro rfl
    exact hself

/-- Updating links and array at a node keeps them mirrored. -/
theorem mirror_update {L : List Ptr} (hL : L.Nodup) {link : Ptr → Option Ptr}
    {arr : ℕ → Option ℕ} (h : ∀ i, arr i = (L[i]?.bind link).map L.idxOf) {n : Ptr} (hn : n ∈ L)
    (i : ℕ) : Function.update arr (L.idxOf n) none i =
      (L[i]?.bind (Function.update link n none)).map L.idxOf := by
  by_cases hi : i = L.idxOf n
  · rw [hi, Function.update_self, (getElem?_indexOf hL hn).2 rfl]
    simp
  · rw [Function.update_of_ne hi, h]
    congr 1
    cases hg : L[i]? with
    | none => rfl
    | some c =>
        have hcn : c ≠ n := fun he => hi ((getElem?_indexOf hL hn).1 (he ▸ hg))
        simp [Function.update_of_ne hcn]

/-- **`cut` cuts the edge above a node**, in the links and in the arrays. -/
theorem CutAt.cut (hF : WellFormed F) {K : Finset Ptr} {v : MutableForestView} (h : CutAt F K v)
    {n : Ptr} (hn : n ∈ (ofForest F).nodes) : CutAt F (insert n K) (v.cut n) := by
  have hL : v.nodes.Nodup := h.nodes ▸ nodup_nodes hF
  have hnv : n ∈ v.nodes := h.nodes ▸ hn
  have hmem : ∀ k ∈ insert n K, k ∈ (ofForest F).nodes := fun k hk =>
    (Finset.mem_insert.1 hk).elim (fun he => he ▸ hn) (h.cuts_mem k)
  have hparent : ∀ c, (if c ∈ insert n K then none else (ofForest F).parent c) =
      Function.update v.parent n none c := by
    intro c
    by_cases hc : c = n
    · simp [hc]
    · rw [Function.update_of_ne hc, h.parent]
      simp [hc]
  have hchild : ∀ q, ((ofForest F).leftChild q = some n ∨ (ofForest F).rightChild q = some n) →
      (ofForest F).parent n = some q := by
    rintro q (hq | hq)
    · obtain ⟨l, r, hs, hc⟩ := (leftChild_ofForest hF).1 hq
      exact (parent_ofForest hF).2 ⟨l, r, hs, Or.inl hc⟩
    · obtain ⟨l, r, hs, hc⟩ := (rightChild_ofForest hF).1 hq
      exact (parent_ofForest hF).2 ⟨l, r, hs, Or.inr hc⟩
  unfold MutableForestView.cut
  cases hp : v.parent n with
  | none =>
      -- a root: no node has it as a child any more
      have hupd : Function.update v.parent n none = v.parent := by
        rw [← hp]; exact Function.update_eq_self n v.parent
      have hsame : ∀ x q, (x = (ofForest F).leftChild q ∨ x = (ofForest F).rightChild q) →
          x.filter (· ∉ insert n K) = x.filter (· ∉ K) := by
        intro x q hx
        by_cases hxn : x = some n
        · have hq := hchild q (hx.imp (fun hx => hx.symm.trans hxn) fun hx => hx.symm.trans hxn)
          have hnK : n ∈ K := by
            by_contra hnK
            rw [h.parent, if_neg hnK, hq] at hp
            cases hp
          rw [Finset.insert_eq_of_mem hnK]
        · exact filter_insert_of_ne hxn
      refine ⟨hmem, h.nodes, h.nodeOf, h.labelOf, fun c => ?_, fun q => ?_, fun q => ?_, h.parentIdx,
        h.leftIdx, h.rightIdx⟩
      · rw [hparent, hupd]
      · rw [h.leftChild, hsame _ q (Or.inl rfl)]
      · rw [h.rightChild, hsame _ q (Or.inr rfl)]
  | some p =>
      have hnK : n ∉ K := by
        intro hnK
        rw [h.parent, if_pos hnK] at hp
        cases hp
      have hp₀ : (ofForest F).parent n = some p := by rwa [h.parent, if_neg hnK] at hp
      obtain ⟨l, r, hs, hc⟩ := (parent_ofForest hF).1 hp₀
      have hpv : p ∈ v.nodes := h.nodes ▸ mem_nodes.2 ⟨_, hs, rfl⟩
      have hleft₀ : (ofForest F).leftChild p = some l.ptr :=
        (leftChild_ofForest hF).2 ⟨l, r, hs, rfl⟩
      have hright₀ : (ofForest F).rightChild p = some r.ptr :=
        (rightChild_ofForest hF).2 ⟨l, r, hs, rfl⟩
      have hlr := left_ne_right hF hs
      have hother : ∀ q, q ≠ p → (ofForest F).leftChild q ≠ some n ∧
          (ofForest F).rightChild q ≠ some n := by
        refine fun q hq => ⟨fun hl => hq ?_, fun hr => hq ?_⟩
        · exact Option.some.inj ((hchild q (Or.inl hl)).symm.trans hp₀)
        · exact Option.some.inj ((hchild q (Or.inr hr)).symm.trans hp₀)
      dsimp only
      by_cases hl : l.ptr = n
      · have hvl : v.leftChild p = some n := by
          rw [h.leftChild, hleft₀, hl]; simp [Option.filter, hnK]
        have hrn : r.ptr ≠ n := fun hr => hlr (hl.trans hr.symm)
        rw [if_pos hvl]
        refine ⟨hmem, h.nodes, h.nodeOf, h.labelOf, fun c => (hparent c).symm, fun q => ?_, fun q => ?_,
          mirror_update hL h.parentIdx hnv, mirror_update hL h.leftIdx hpv, h.rightIdx⟩
        · by_cases hq : q = p
          · rw [hq, hleft₀, hl, filter_insert_self]; exact Function.update_self ..
          · rw [filter_insert_of_ne (hother q hq).1, ← h.leftChild]; exact Function.update_of_ne hq ..
        · rw [h.rightChild]
          by_cases hq : q = p
          · rw [hq, hright₀, filter_insert_of_ne fun he => hrn (Option.some.inj he)]
          · rw [filter_insert_of_ne (hother q hq).2]
      · have hr : r.ptr = n := hc.resolve_left hl
        have hvl : v.leftChild p ≠ some n := by
          rw [h.leftChild, hleft₀]
          simp only [Option.filter]
          split_ifs
          · exact fun he => hl (Option.some.inj he)
          · simp
        have hvr : v.rightChild p = some n := by
          rw [h.rightChild, hright₀, hr]; simp [Option.filter, hnK]
        rw [if_neg hvl, if_pos hvr]
        refine ⟨hmem, h.nodes, h.nodeOf, h.labelOf, fun c => (hparent c).symm, fun q => ?_, fun q => ?_,
          mirror_update hL h.parentIdx hnv, h.leftIdx, mirror_update hL h.rightIdx hpv⟩
        · rw [h.leftChild]
          by_cases hq : q = p
          · rw [hq, hleft₀, filter_insert_of_ne fun he => hl (Option.some.inj he)]
          · rw [filter_insert_of_ne (hother q hq).1]
        · by_cases hq : q = p
          · rw [hq, hright₀, hr, filter_insert_self]; exact Function.update_self ..
          · rw [filter_insert_of_ne (hother q hq).2, ← h.rightChild]
            exact Function.update_of_ne hq ..

section Cut

variable {K : Finset Ptr} {v : MutableForestView}

/-- The parents of a view are those of the forest, off the cuts. -/
theorem CutAt.parent_eq_some (h : CutAt F K v) {c q : Ptr} :
    v.parent c = some q ↔ c ∉ K ∧ (ofForest F).parent c = some q := by
  rw [h.parent]
  split_ifs with hc <;> simp [hc]

/-- Cutting does not renumber the nodes. -/
theorem CutAt.indexOf (h : CutAt F K v) (p : Ptr) : v.indexOf p = (ofForest F).indexOf p := by
  rw [MutableForestView.indexOf, h.nodes]; rfl

/-- The parent links of a view are grounded, and no higher than the number of nodes. -/
theorem CutAt.exists_grounded (hF : WellFormed F) (h : CutAt F K v) :
    ∃ ht, Grounded v.parent ht ∧ ∀ p ∈ v.nodes, ht p ≤ v.nodes.length := by
  obtain ⟨ht, hg, hle⟩ := @ParentWalk.exists_grounded _ v.parent v.indexOf
    fun p q hpq => by
      rw [h.indexOf, h.indexOf]
      exact indexOf_parent_lt hF (h.parent_eq_some.1 hpq).2
  exact ⟨ht, hg, fun p hp => (hle p).trans (List.idxOf_lt_length_iff.2 hp)⟩

/-- The parent of a node is a node. -/
theorem CutAt.parent_mem (hF : WellFormed F) (h : CutAt F K v) {c q : Ptr}
    (hp : v.parent c = some q) : c ∈ v.nodes ∧ q ∈ v.nodes := by
  obtain ⟨l, r, hs, hc⟩ := (parent_ofForest hF).1 (h.parent_eq_some.1 hp).2
  obtain ⟨hl, hr⟩ := Forest.mem_subtrees_children hs
  rw [h.nodes]
  refine ⟨mem_nodes.2 ?_, mem_nodes.2 ⟨_, hs, rfl⟩⟩
  exact hc.elim (fun hc => ⟨l, hl, hc⟩) fun hc => ⟨r, hr, hc⟩

/-- The links lead up to the next cut. -/
theorem CutAt.anc_iff_anc (hF : WellFormed F) (h : CutAt F K v) {p q : Ptr} :
    Anc v.parent p q ↔ Anc (ofForest F).parent p q ∧
      ∀ k ∈ K, Anc (ofForest F).parent p k → Anc (ofForest F).parent q k := by
  constructor
  · intro hpq
    induction hpq using Relation.ReflTransGen.head_induction_on with
    | refl => exact ⟨.refl, fun k _ hk => hk⟩
    | head hstep _ ih =>
        obtain ⟨hcK, hc₀⟩ := h.parent_eq_some.1 hstep
        refine ⟨.head hc₀ ih.1, fun k hk hck => ih.2 k hk (anc_of_ne hc₀ hck ?_)⟩
        exact fun he => hcK (he ▸ hk)
  · rintro ⟨hpq, hK⟩
    obtain ⟨ht, hg⟩ := exists_grounded_ofForest hF
    induction hpq using Relation.ReflTransGen.head_induction_on with
    | refl => exact .refl
    | @head c d hstep hdq ih =>
        have hcK : c ∉ K := by
          intro hcK
          have h₁ := hg.le_of_anc (hK c hcK .refl)
          have h₂ := hg.le_of_anc hdq
          have h₃ := hg.step _ _ hstep
          omega
        exact .head (h.parent_eq_some.2 ⟨hcK, hstep⟩) (ih fun k hk hdk => hK k hk (.head hstep hdk))

/-- The clusters cut off. -/
def cutClusters (F : Forest) (K : Finset Ptr) : Finset (Finset Label) := K.image (cluster F)

/-- **A node reaches another exactly when its labels lie inside and no cut cluster
lies between.** -/
theorem CutAt.anc_iff (hF : WellFormed F) (h : CutAt F K v) {s u : Tree} (hs : s ∈ F.subtrees)
    (hu : u ∈ F.subtrees) : Anc v.parent s.ptr u.ptr ↔ s.labels ⊆ u.labels ∧
      ∀ Y ∈ cutClusters F K, s.labels ⊆ Y → u.labels ⊆ Y := by
  rw [h.anc_iff_anc hF, anc_ofForest_iff hF hs hu]
  refine and_congr_right fun _ => ?_
  constructor
  · intro hK Y hY hsY
    obtain ⟨k, hk, rfl⟩ := Finset.mem_image.1 hY
    obtain ⟨w, hw, rfl⟩ := mem_nodes.1 (h.cuts_mem k hk)
    rw [cluster_ptr hF hw] at hsY ⊢
    exact (anc_ofForest_iff hF hu hw).1 (hK _ hk ((anc_ofForest_iff hF hs hw).2 hsY))
  · intro hK k hk hsk
    obtain ⟨w, hw, rfl⟩ := mem_nodes.1 (h.cuts_mem k hk)
    refine (anc_ofForest_iff hF hu hw).2 ?_
    have := hK _ (Finset.mem_image_of_mem _ hk)
    rw [cluster_ptr hF hw] at this
    exact this ((anc_ofForest_iff hF hs hw).1 hsk)

/-- What a node reaches is a node. -/
theorem CutAt.exists_of_anc (hF : WellFormed F) (h : CutAt F K v) {s : Tree} (hs : s ∈ F.subtrees)
    {q : Ptr} (hq : Anc v.parent s.ptr q) : ∃ u ∈ F.subtrees, u.ptr = q := by
  induction hq with
  | refl => exact ⟨s, hs, rfl⟩
  | tail _ hstep _ => exact mem_nodes.1 (h.nodes ▸ (h.parent_mem hF hstep).2)

/-- The node of a label is its leaf. -/
theorem CutAt.nodeOf_eq (hF : WellFormed F) (h : CutAt F K v) {x : Label} {p : Ptr} :
    v.nodeOf x = some p ↔ ∃ m, Tree.leaf p x m ∈ F.subtrees := by
  rw [h.nodeOf]
  constructor
  · intro hx
    obtain ⟨s, hs, rfl⟩ := Option.map_eq_some_iff.1 hx
    obtain ⟨hmem, hterm, rfl⟩ := find_spec hs
    cases s with
    | leaf p l m => exact ⟨m, mem_flatMap_preOrder.1 hmem⟩
    | node => cases hterm
  · rintro ⟨m, hs⟩
    obtain ⟨u, hu⟩ := exists_find (P := fun s : Tree => s.isTerminal = true ∧ leafLabel s = x)
      (mem_flatMap_preOrder.2 hs) ⟨rfl, rfl⟩
    obtain ⟨hmem, hterm, hlab⟩ := find_spec hu
    refine Option.map_eq_some_iff.2 ⟨u, hu, ?_⟩
    cases u with
    | node => cases hterm
    | leaf p' l m' =>
        obtain rfl : l = x := hlab
        exact congrArg Tree.ptr
          (Forest.eq_of_labels_eq hF.distinct (mem_flatMap_preOrder.1 hmem) hs rfl)

/-! Roots and components. -/

/-- What `rootOf` returns for a leaf: the lowest cut or root around its label. -/
theorem CutAt.rootOf_spec (hF : WellFormed F) (h : CutAt F K v) {s : Tree} (hs : s ∈ F.subtrees) :
    ∃ u ∈ F.subtrees, v.rootOf s.ptr = u.ptr ∧ s.labels ⊆ u.labels ∧
      (∀ Y ∈ cutClusters F K, s.labels ⊆ Y → u.labels ⊆ Y) ∧
      (u.labels ∈ cutClusters F K ∨ u ∈ F) := by
  obtain ⟨ht, hg, hle⟩ := h.exists_grounded hF
  have hmem : s.ptr ∈ v.nodes := h.nodes ▸ mem_nodes.2 ⟨s, hs, rfl⟩
  obtain ⟨hanc, hroot⟩ := ParentWalk.rootOf_spec hg v.nodes.length s.ptr (hle _ hmem)
  obtain ⟨u, hu, hup⟩ := h.exists_of_anc hF hs hanc
  rw [← hup] at hanc hroot
  obtain ⟨hsub, hK⟩ := (h.anc_iff hF hs hu).1 hanc
  refine ⟨u, hu, hup.symm, hsub, hK, ?_⟩
  by_cases huK : u.ptr ∈ K
  · exact Or.inl (cluster_ptr hF hu ▸ Finset.mem_image_of_mem _ huK)
  · refine Or.inr ((Forest.root_or_child hu).resolve_right ?_)
    rintro ⟨q, l, r, hq, hlr⟩
    have hp : (ofForest F).parent u.ptr = some q :=
      (parent_ofForest hF).2 ⟨l, r, hq, hlr.imp (fun he => by rw [he]) fun he => by rw [he]⟩
    rw [h.parent, if_neg huK, hp] at hroot
    cases hroot

/-- **In a single tree the roots tell the components apart.** -/
theorem CutAt.root_eq_iff {t : Tree} (hF : WellFormed [t]) (h : CutAt [t] K v) {x y : Label}
    {p q : Ptr} (hx : v.nodeOf x = some p) (hy : v.nodeOf y = some q) :
    v.rootOf p = v.rootOf q ↔ comp (cutClusters [t] K) x = comp (cutClusters [t] K) y := by
  obtain ⟨m, hs⟩ := (h.nodeOf_eq hF).1 hx
  obtain ⟨m', hs'⟩ := (h.nodeOf_eq hF).1 hy
  obtain ⟨u, hu, hru, hxu, hK, hor⟩ := h.rootOf_spec hF hs
  obtain ⟨u', hu', hru', hyu', hK', hor'⟩ := h.rootOf_spec hF hs'
  simp only [Tree.labels, Finset.singleton_subset_iff, Tree.ptr] at hru hru' hxu hyu' hK hK'
  rw [hru, hru', comp_eq_iff]
  constructor
  · intro he
    obtain rfl := Forest.eq_of_ptr_eq hF.nodup hu hu' he
    exact fun Y hY => ⟨fun hxY => hK Y hY hxY hyu', fun hyY => hK' Y hY hyY hxu⟩
  · intro hcomp
    -- the lower of the two roots is a cut, unless both are the root of the tree
    have top : ∀ {w}, w ∈ Forest.subtrees [t] → ∀ {w'}, w' ∈ [t] → w.labels ⊆ w'.labels := by
      intro w hw w' hw'
      rw [List.mem_singleton.1 hw']
      obtain ⟨t', ht', hw⟩ := Forest.mem_subtrees.1 hw
      exact Tree.labels_subset_of_mem_subtrees (List.mem_singleton.1 ht' ▸ hw)
    have h₁ : u'.labels ⊆ u.labels := hor.elim (fun hc => hK' _ hc ((hcomp _ hc).1 hxu)) (top hu')
    have h₂ : u.labels ⊆ u'.labels := hor'.elim (fun hc => hK _ hc ((hcomp _ hc).2 hyu')) (top hu)
    rw [Forest.eq_of_labels_eq hF.distinct hu hu' (h₂.antisymm h₁)]

/-! Counts. -/

/-- The labels of `A` in the subtree of the node with cluster `X`, after the
clusters `C` are cut off. -/
def reached (C : Finset (Finset Label)) (A X : Finset Label) : Finset Label :=
  A.filter fun x => x ∈ X ∧ ∀ Y ∈ C, x ∈ Y → X ⊆ Y

/-- A node is listed at its index. -/
theorem getElem?_nodes_indexOf (hF : WellFormed F) (h : CutAt F K v) {p : Ptr} (hp : p ∈ v.nodes) :
    v.nodes[v.indexOf p]? = some p :=
  (getElem?_indexOf (h.nodes ▸ nodup_nodes hF) hp).2 rfl

/-- Two nodes have different indices. -/
theorem indexOf_inj {p q : Ptr} (hp : p ∈ v.nodes) (he : v.indexOf p = v.indexOf q) : p = q :=
  (List.idxOf_inj hp).1 he

/-- The index of the parent is that of the parent link. -/
theorem CutAt.parentIdx_indexOf (hF : WellFormed F) (h : CutAt F K v) {p : Ptr} (hp : p ∈ v.nodes) :
    v.parentIdx (v.indexOf p) = (v.parent p).map v.indexOf := by
  rw [h.parentIdx, getElem?_nodes_indexOf hF h hp]; rfl

/-- The numbers of the ancestors are the ancestors of the number. -/
theorem CutAt.anc_idx_iff (hF : WellFormed F) (h : CutAt F K v) {p q : Ptr} (hp : p ∈ v.nodes) :
    Anc v.parentIdx (v.indexOf p) (v.indexOf q) ↔ Anc v.parent p q := by
  constructor
  · intro ha
    generalize hi : v.indexOf p = i at ha
    induction ha using Relation.ReflTransGen.head_induction_on generalizing p with
    | refl => rw [indexOf_inj hp hi]
    | head hstep _ ih =>
        rw [← hi, h.parentIdx_indexOf hF hp] at hstep
        obtain ⟨c, hc, hci⟩ := Option.map_eq_some_iff.1 hstep
        exact .head hc (ih (h.parent_mem hF hc).2 hci)
  · intro ha
    induction ha using Relation.ReflTransGen.head_induction_on with
    | refl => exact .refl
    | head hstep _ ih =>
        obtain ⟨hc, hd⟩ := h.parent_mem hF hstep
        refine .head ?_ (ih hd)
        rw [h.parentIdx_indexOf hF hc, hstep]
        rfl

/-- The numbers of ancestors are numbers of nodes. -/
theorem CutAt.exists_of_anc_idx (hF : WellFormed F) (h : CutAt F K v) {p : Ptr} (hp : p ∈ v.nodes) {i : ℕ}
    (hi : Anc v.parentIdx (v.indexOf p) i) : ∃ q ∈ v.nodes, v.indexOf q = i := by
  induction hi with
  | refl => exact ⟨p, hp, rfl⟩
  | tail _ hstep ih =>
      obtain ⟨q, hq, rfl⟩ := ih
      rw [h.parentIdx_indexOf hF hq] at hstep
      obtain ⟨c, hc, rfl⟩ := Option.map_eq_some_iff.1 hstep
      exact ⟨c, (h.parent_mem hF hc).2, rfl⟩

/-- The label at the index of a leaf is its label. -/
theorem CutAt.labelOf_indexOf (hF : WellFormed F) (h : CutAt F K v) {s : Tree}
    (hs : s ∈ F.subtrees) : v.labelOf (v.indexOf s.ptr) = leafLabel s := by
  have hmem : s.ptr ∈ v.nodes := h.nodes ▸ mem_nodes.2 ⟨s, hs, rfl⟩
  have hget := getElem?_nodes_indexOf hF h hmem
  rw [h.nodes, nodes_ofForest, List.getElem?_map] at hget
  obtain ⟨u, hu, hup⟩ := Option.map_eq_some_iff.1 hget
  have hmemu := mem_flatMap_preOrder.1 (List.mem_of_getElem? hu)
  rw [h.labelOf, show (ofForest F).labelOf (v.indexOf s.ptr) =
    ((F.flatMap preOrder)[v.indexOf s.ptr]?.map leafLabel).getD 0 from rfl, hu,
    Forest.eq_of_ptr_eq hF.nodup hmemu hs hup]
  rfl

/-- Every index is that of a node. -/
theorem CutAt.exists_of_lt (hF : WellFormed F) (h : CutAt F K v) {i : ℕ} (hi : i < v.nodes.length) :
    ∃ s ∈ F.subtrees, i = v.indexOf s.ptr := by
  obtain ⟨p, hp⟩ : ∃ p, v.nodes[i]? = some p := ⟨_, List.getElem?_eq_getElem hi⟩
  have hmem : p ∈ v.nodes := List.mem_of_getElem? hp
  have hi' : i = v.indexOf p := (getElem?_indexOf (h.nodes ▸ nodup_nodes hF) hmem).1 hp
  rw [h.nodes] at hmem
  obtain ⟨s, hs, rfl⟩ := mem_nodes.1 hmem
  exact ⟨s, hs, hi'⟩

/-- The number of a node, a position in the arrays. -/
theorem CutAt.indexOf_lt (h : CutAt F K v) {s : Tree} (hs : s ∈ F.subtrees) : v.indexOf s.ptr < v.nodes.length :=
  List.idxOf_lt_length_iff.2 (h.nodes ▸ mem_nodes.2 ⟨s, hs, rfl⟩)

/-- A parent has a smaller number than its children, after any cuts. -/
theorem CutAt.parentIdx_lt (hF : WellFormed F) (h : CutAt F K v) (i j : ℕ) (hij : v.parentIdx i = some j) : j < i := by
  rw [h.parentIdx] at hij
  obtain ⟨q, hq, rfl⟩ := Option.map_eq_some_iff.1 hij
  obtain ⟨c, hc, hcq⟩ := Option.bind_eq_some_iff.1 hq
  have hi : i = v.indexOf c :=
    (getElem?_indexOf (h.nodes ▸ nodup_nodes hF) (List.mem_of_getElem? hc)).1 hc
  rw [hi, h.indexOf, h.indexOf]
  exact indexOf_parent_lt hF (h.parent_eq_some.1 hcq).2

/-- **`refreshCounts` counts the active leaves that reach a node.** -/
theorem CutAt.count_eq (hF : WellFormed F) (h : CutAt F K v) {A : Finset Label} {s : Tree} (hs : s ∈ F.subtrees) :
    (v.refreshCounts A).count s.ptr = (reached (cutClusters F K) A s.labels).card := by
  classical
  have hmem : ∀ {u : Tree}, u ∈ F.subtrees → u.ptr ∈ v.nodes := fun hu =>
    h.nodes ▸ mem_nodes.2 ⟨_, hu, rfl⟩
  rw [show (v.refreshCounts A).count s.ptr = sweep v.parentIdx v.nodes.length
      (fun i => if v.labelOf i ≠ 0 ∧ v.labelOf i ∈ A then 1 else 0) (v.indexOf s.ptr) from rfl,
    sweep_eq_sum (h.parentIdx_lt hF) _ _ _ (h.indexOf_lt hs), ← Finset.card_filter]
  refine Finset.card_bij (fun i _ => v.labelOf i) ?_ ?_ ?_
  · intro i hi
    simp only [Finset.mem_filter, Finset.mem_range] at hi
    obtain ⟨⟨hin, hanc⟩, hne, hiA⟩ := hi
    obtain ⟨u, hu, rfl⟩ := h.exists_of_lt hF hin
    rw [h.labelOf_indexOf hF hu] at hne hiA ⊢
    rw [h.anc_idx_iff hF (hmem hu), h.anc_iff hF hu hs] at hanc
    cases u with
    | node => exact absurd rfl hne
    | leaf p l m =>
        simp only [Tree.labels, Finset.singleton_subset_iff] at hanc
        exact Finset.mem_filter.2 ⟨hiA, hanc⟩
  · intro i hi j hj hij
    simp only [Finset.mem_filter, Finset.mem_range] at hi hj
    obtain ⟨u, hu, rfl⟩ := h.exists_of_lt hF hi.1.1
    obtain ⟨w, hw, rfl⟩ := h.exists_of_lt hF hj.1.1
    have hne := hi.2.1
    have hne' := hj.2.1
    rw [h.labelOf_indexOf hF hu] at hne hij
    rw [h.labelOf_indexOf hF hw] at hne' hij
    cases u with
    | node => exact absurd rfl hne
    | leaf p l m =>
        cases w with
        | node => exact absurd rfl hne'
        | leaf p' l' m' =>
            obtain rfl : l = l' := hij
            rw [Forest.eq_of_labels_eq hF.distinct hu hw rfl]
  · intro x hx
    obtain ⟨hxA, hxs, hxK⟩ := Finset.mem_filter.1 hx
    have hxF : x ∈ F.labels := by
      obtain ⟨t, ht, hst⟩ := Forest.mem_subtrees.1 hs
      exact Forest.mem_labels.2 ⟨t, ht, Tree.labels_subset_of_mem_subtrees hst hxs⟩
    obtain ⟨p, m, hleaf⟩ := Forest.exists_leaf hxF
    have hlab := h.labelOf_indexOf hF hleaf
    refine ⟨v.indexOf p, ?_, hlab⟩
    rw [Tree.ptr, leafLabel] at hlab
    simp only [Finset.mem_filter, Finset.mem_range]
    refine ⟨⟨List.idxOf_lt_length_iff.2 (hmem hleaf), ?_⟩, ?_, ?_⟩
    · refine (h.anc_idx_iff hF (hmem hleaf)).2 ((h.anc_iff hF hleaf hs).2 ?_)
      simpa only [Tree.labels, Finset.singleton_subset_iff] using ⟨hxs, hxK⟩
    · rw [hlab]; exact hF.label_ne x hxF
    · rw [hlab]; exact hxA

end Cut

end MutableForestView
end Approx
end Maf
