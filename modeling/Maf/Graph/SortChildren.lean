/-
# The sorted forest

`Forest::sortChildrenAndCollectTerminals`, with which `ReadNewick` ends.  Whatever
the order of the children in memory, it computes the words of all nodes and sorts
all children by their smallest labels (`orderSubtree_spec`), and then it sorts the
roots: it leaves the forest `Forest.sort`, at the same addresses.

On the memory of a topology that was read this is the topology `Shape.sort`
(`Shape.place`), so a text of topologies without a repeated label is read as a
well-formed forest (`readNewick_events`).
-/

import Maf.Action.DeleteEdgeAction
import Maf.Graph.StablePointers

namespace Maf

open Bitset (encode Within)
open Newick (Stable lexTrees seenTrees)

namespace Tree

/-- The children in memory are those of the tree. -/
def Linked (h : Graph.Nodes) : Tree → Prop
  | leaf p _ _ => (h p).leftChild = none ∧ (h p).rightChild = none
  | node p l r => ((h p).leftChild = some l.ptr ∧ (h p).rightChild = some r.ptr) ∧ Linked h l ∧ Linked h r

/-- Only the nodes of the tree matter. -/
theorem Linked.congr {h h' : Graph.Nodes} {t : Tree} (ht : t.Linked h)
    (heq : ∀ q ∈ t.ptrs, (h' q).leftChild = (h q).leftChild ∧ (h' q).rightChild = (h q).rightChild) : t.Linked h' := by
  induction t with
  | leaf p x m =>
      obtain ⟨hl, hr⟩ := heq p (by simp)
      exact ⟨hl.trans ht.1, hr.trans ht.2⟩
  | node p l r ihl ihr =>
      obtain ⟨hl, hr⟩ := heq p (by simp)
      exact ⟨⟨hl.trans ht.1.1, hr.trans ht.1.2⟩, ihl ht.2.1 fun q hq => heq q (by simp [hq]),
        ihr ht.2.2 fun q hq => heq q (by simp [hq])⟩

/-- A tree is linked when each of its nodes has its children. -/
theorem linked_iff {h : Graph.Nodes} {t : Tree} : t.Linked h ↔
    ∀ u ∈ t.subtrees, (h u.ptr).leftChild = u.leftPtr ∧ (h u.ptr).rightChild = u.rightPtr := by
  induction t with
  | leaf p x m => simp [Linked, subtrees, leftPtr, rightPtr]
  | node p l r ihl ihr =>
      rw [Linked, ihl, ihr]
      constructor
      · rintro ⟨hp, hl, hr⟩ u hu
        rcases mem_subtrees_node.1 hu with rfl | hu | hu
        · exact hp
        · exact hl u hu
        · exact hr u hu
      · intro hall
        exact ⟨hall _ (mem_subtrees_self _), fun u hu => hall u (mem_subtrees_node.2 (Or.inr (Or.inl hu))),
          fun u hu => hall u (mem_subtrees_node.2 (Or.inr (Or.inr hu)))⟩

/-- A stored tree is linked. -/
theorem Stored.linked {width : ℕ} {h : Graph.Nodes} {parent sibling : Option Ptr} {t : Tree}
    (ht : t.Stored width h parent sibling) : t.Linked h := by
  refine linked_iff.2 fun u hu => ?_
  obtain ⟨parent', sibling', hu⟩ := ht.of_mem hu
  rw [hu.root]
  exact ⟨rfl, rfl⟩

/-- The tree with its children sorted. -/
def sort : Tree → Tree
  | leaf p x m => leaf p x m
  | node p l r => sortedNode p l.sort r.sort

/-- Sorting moves no root. -/
@[simp] theorem ptr_sort (t : Tree) : t.sort.ptr = t.ptr := by
  cases t with
  | leaf => rfl
  | node => exact ptr_sortedNode ..

/-- Sorting keeps the least label. -/
@[simp] theorem least_sort (t : Tree) : t.sort.least = t.least := by
  induction t with
  | leaf => rfl
  | node p l r ihl ihr => rw [sort, least_sortedNode, ihl, ihr, least]

/-- Sorting keeps the labels. -/
@[simp] theorem labels_sort (t : Tree) : t.sort.labels = t.labels := by
  induction t with
  | leaf => rfl
  | node p l r ihl ihr => rw [sort, labels_sortedNode, ihl, ihr, labels]

/-- Sorting keeps the terminals. -/
@[simp] theorem subtreeTerminals_sort (t : Tree) : t.sort.subtreeTerminals = t.subtreeTerminals := by
  induction t with
  | leaf => rfl
  | node p l r ihl ihr => rw [sort, subtreeTerminals_sortedNode, ihl, ihr, subtreeTerminals]

/-- Sorting keeps the nodes. -/
theorem ptrs_sort (t : Tree) : t.sort.ptrs.Perm t.ptrs := by
  induction t with
  | leaf => exact List.Perm.refl _
  | node p l r ihl ihr => exact (ptrs_sortedNode ..).trans ((ihl.append ihr).cons p)

/-- Sorting keeps the leaves. -/
theorem mem_leaf_sort {t : Tree} {q : Ptr} {x : Label} {m : Finset Label} :
    leaf q x m ∈ t.sort.subtrees ↔ leaf q x m ∈ t.subtrees := by
  induction t with
  | leaf => rfl
  | node p l r ihl ihr =>
      have hne : leaf q x m ≠ sortedNode p l.sort r.sort := by
        unfold sortedNode
        split_ifs <;> exact fun h => by cases h
      rw [sort, mem_subtrees_sortedNode, mem_subtrees_node, ihl, ihr]
      simp [hne]

/-- The terminals stand for one label each. -/
def Uncollapsed (t : Tree) : Prop := ∀ p x m, leaf p x m ∈ t.subtrees → m = ∅

/-- Without collapsed leaves the terminals are the labels. -/
theorem Uncollapsed.subtreeTerminals_eq {t : Tree} (ht : t.Uncollapsed) : t.subtreeTerminals = t.labels :=
  subtreeTerminals_eq_labels ht

/-- A sorted tree with distinct positive labels is valid. -/
theorem valid_sort {t : Tree} (ht : t.Distinct) (hun : t.Uncollapsed) (hpos : ∀ x ∈ t.labels, 0 < x) :
    t.sort.Valid := by
  induction t with
  | leaf p x m =>
      rw [hun p x m (mem_subtrees_self _)]
      exact ⟨hpos x (by simp), by simp⟩
  | node p l r ihl ihr =>
      have hl : l.Uncollapsed := fun q x m h => hun q x m (mem_subtrees_node.2 (Or.inr (Or.inl h)))
      have hr : r.Uncollapsed := fun q x m h => hun q x m (mem_subtrees_node.2 (Or.inr (Or.inr h)))
      refine (ihl ht.1 hl fun x hx => hpos x (by simp [hx])).sortedNode
        (ihr ht.2.1 hr fun x hx => hpos x (by simp [hx])) ?_
      rw [subtreeTerminals_sort, subtreeTerminals_sort, hl.subtreeTerminals_eq, hr.subtreeTerminals_eq]
      exact ht.2.2

end Tree

namespace Shape

/-- The topology with its children sorted. -/
def sort : Shape → Shape
  | tip x => tip x
  | join a b => cherry a.sort b.sort

/-- The topology as a tree with sorted children, at the addresses of `build`. -/
def place (p : Ptr) : Shape → Tree
  | tip x => .leaf p x ∅
  | join a b => .sortedNode p (a.place (p + 1)) (b.place (p + 1 + a.size))

/-- Sorting a topology keeps the labels. -/
@[simp] theorem labels_sort (t : Shape) : t.sort.labels = t.labels := by
  induction t with
  | tip x => rfl
  | join a b iha ihb => rw [sort, labels_cherry, iha, ihb, labels]

/-- The least label of two topologies put together. -/
theorem least_cherry (a b : Shape) : (cherry a b).least = min a.least b.least := by
  unfold cherry
  split_ifs
  · rfl
  · exact min_comm _ _

/-- Sorting a topology keeps the least label. -/
@[simp] theorem least_sort (t : Shape) : t.sort.least = t.least := by
  induction t with
  | tip x => rfl
  | join a b iha ihb => rw [sort, least_cherry, iha, ihb, least]

/-- A topology is placed at its address. -/
@[simp] theorem ptr_place (p : Ptr) (t : Shape) : (t.place p).ptr = p := by
  cases t with
  | tip x => rfl
  | join a b => exact Tree.ptr_sortedNode ..

/-- A topology is placed with its labels. -/
@[simp] theorem labels_place (p : Ptr) (t : Shape) : (t.place p).labels = t.labels := by
  induction t generalizing p with
  | tip x => rfl
  | join a b iha ihb => rw [place, Tree.labels_sortedNode, iha, ihb, labels]

/-- The terminals of a placed topology are its labels. -/
@[simp] theorem subtreeTerminals_place (p : Ptr) (t : Shape) : (t.place p).subtreeTerminals = t.labels := by
  induction t generalizing p with
  | tip x => simp [place]
  | join a b iha ihb => rw [place, Tree.subtreeTerminals_sortedNode, iha, ihb, labels]

/-- A topology is placed with its least label. -/
@[simp] theorem least_place (p : Ptr) (t : Shape) : (t.place p).least = t.least := by
  induction t generalizing p with
  | tip x => rfl
  | join a b iha ihb => rw [place, Tree.least_sortedNode, iha, ihb, least]

/-- A topology takes up the addresses from its own on. -/
theorem ptrs_place (p : Ptr) (t : Shape) : (t.place p).ptrs.Perm (List.range' p t.size) := by
  induction t generalizing p with
  | tip x => exact List.Perm.refl _
  | join a b iha ihb =>
      rw [size, List.range'_succ, ← List.range'_append_1]
      exact (Tree.ptrs_sortedNode ..).trans (((iha _).append (ihb _)).cons p)

/-- Reading in place is reading and sorting. -/
theorem place_eq_sort (p : Ptr) (t : Shape) : t.place p = (t.build p).sort := by
  induction t generalizing p with
  | tip x => rfl
  | join a b iha ihb => rw [place, iha, ihb, build, Tree.sort]

/-- A topology is built with its least label. -/
@[simp] theorem least_build (p : Ptr) (t : Shape) : (t.build p).least = t.least := by
  rw [← Tree.least_sort, ← place_eq_sort, least_place]

/-- Building keeps the labels distinct. -/
theorem distinct_build {t : Shape} (ht : t.Distinct) (p : Ptr) : (t.build p).Distinct := by
  induction t generalizing p with
  | tip x => trivial
  | join a b iha ihb =>
      refine ⟨iha ht.1 _, ihb ht.2.1 _, ?_⟩
      rw [labels_build, labels_build]
      exact ht.2.2

/-- What is built has no collapsed leaf. -/
theorem eq_empty_of_mem_build {p q : Ptr} {t : Shape} {x : Label} {m : Finset Label}
    (h : Tree.leaf q x m ∈ (t.build p).subtrees) : m = ∅ := by
  induction t generalizing p with
  | tip y => exact (Tree.leaf.inj (List.mem_singleton.1 h)).2.2
  | join a b iha ihb =>
      rcases Tree.mem_subtrees_node.1 h with h | h | h
      · cases h
      · exact iha h
      · exact ihb h

/-- What is placed has the leaves of what is built. -/
theorem mem_leaf_place {p q : Ptr} {t : Shape} {x : Label} {m : Finset Label} :
    Tree.leaf q x m ∈ (t.place p).subtrees ↔ Tree.leaf q x m ∈ (t.build p).subtrees := by
  rw [place_eq_sort, Tree.mem_leaf_sort]

/-- What is placed has no collapsed leaf. -/
theorem eq_empty_of_mem_place {p q : Ptr} {t : Shape} {x : Label} {m : Finset Label}
    (h : Tree.leaf q x m ∈ (t.place p).subtrees) : m = ∅ :=
  eq_empty_of_mem_build (mem_leaf_place.1 h)

/-! ### Some topologies -/

/-- Each tree of a row comes from one of the topologies. -/
theorem mem_row {f : Ptr → Shape → Tree} {ts : List Shape} {p : Ptr} {t : Tree} (h : t ∈ row f p ts) :
    ∃ q, ∃ u ∈ ts, t = f q u := by
  induction ts generalizing p with
  | nil => cases h
  | cons u ts ih =>
      rcases List.mem_cons.1 h with rfl | h
      · exact ⟨p, u, List.mem_cons_self .., rfl⟩
      · obtain ⟨q, v, hv, rfl⟩ := ih h
        exact ⟨q, v, List.mem_cons_of_mem _ hv, rfl⟩

/-- The trees of a row take up one address after the other. -/
theorem ptrs_row {f : Ptr → Shape → Tree} (hf : ∀ p t, (f p t).ptrs.Perm (List.range' p t.size)) (p : Ptr)
    (ts : List Shape) : (Forest.ptrs (row f p ts)).Perm (List.range' p (sizes ts)) := by
  induction ts generalizing p with
  | nil => exact List.Perm.refl _
  | cons t ts ih =>
      rw [sizes, List.map_cons, List.sum_cons, ← List.range'_append_1]
      exact (hf p t).append (ih _)

/-- A row of placed topologies has the leaves of the built ones. -/
theorem mem_leaf_row {p q : Ptr} {ts : List Shape} {x : Label} {m : Finset Label} :
    Tree.leaf q x m ∈ Forest.subtrees (row (fun p t => t.place p) p ts) ↔
      Tree.leaf q x m ∈ Forest.subtrees (row (fun p t => t.build p) p ts) := by
  induction ts generalizing p with
  | nil => rfl
  | cons t ts ih =>
      simp only [Forest.subtrees] at ih ⊢
      rw [row, row, List.flatMap_cons, List.flatMap_cons, List.mem_append, List.mem_append, mem_leaf_place, ih]

/-- Placing a row is building it and sorting every tree. -/
theorem row_place (p : Ptr) (ts : List Shape) :
    row (fun p t => t.place p) p ts = (row (fun p t => t.build p) p ts).map Tree.sort := by
  induction ts generalizing p with
  | nil => rfl
  | cons t ts ih => rw [row, row, List.map_cons, ih, place_eq_sort]

/-- A row of distinct topologies is a distinct forest. -/
theorem distinct_row {ts : List Shape} (hts : AllDistinct ts) (p : Ptr) :
    Forest.Distinct (row (fun p t => t.build p) p ts) := by
  induction ts generalizing p with
  | nil => trivial
  | cons t ts ih =>
      obtain ⟨hd, hpair⟩ := hts
      rw [List.pairwise_cons] at hpair
      refine ⟨distinct_build (hd t (List.mem_cons_self ..)) p,
        ih ⟨fun u hu => hd u (List.mem_cons_of_mem _ hu), hpair.2⟩ _, Finset.disjoint_left.2 fun x hx hx' => ?_⟩
      obtain ⟨v, hv, hxv⟩ := Forest.mem_labels.1 hx'
      obtain ⟨q, u, hu, rfl⟩ := mem_row hv
      rw [labels_build] at hx hxv
      exact Finset.disjoint_left.1 (hpair.1 u hu) hx hxv

/-- The labels of a row are those of its topologies. -/
theorem labels_row (p : Ptr) (ts : List Shape) {x : Label} :
    x ∈ Forest.labels (row (fun p t => t.place p) p ts) ↔ ∃ t ∈ ts, x ∈ t.labels := by
  induction ts generalizing p with
  | nil => simp [row]
  | cons t ts ih =>
      rw [row, Forest.labels, Finset.mem_union, labels_place, ih]
      simp

/-- No topology is larger than all together. -/
theorem size_le_sizes {t : Shape} {ts : List Shape} (h : t ∈ ts) : t.size ≤ sizes ts :=
  List.single_le_sum (fun _ _ => Nat.zero_le _) _ (List.mem_map_of_mem h)

end Shape

namespace Graph

/-- For a label the subtraction does not wrap around. -/
theorem pred_eq {x : ℕ} (h : 0 < x) (h32 : x < 2 ^ 32) : pred x = x - 1 := by
  unfold pred
  omega

/-- The word of the label is the only one of the terminal that is not empty. -/
def Blank (h : Nodes) (p : Ptr) (x : Label) : Prop :=
  ∀ i, i ≠ (x - 1) / 64 → (h p).subtreeTerminals.getD i 0 = 0

/-- Words that are empty but for one are written anew. -/
theorem resize_set {width : ℕ} {ws : List Bitset.Word} {k : ℕ} (w : Bitset.Word)
    (h : ∀ i, i ≠ k → ws.getD i 0 = 0) : (resize width ws).set k w = (List.replicate width 0).set k w := by
  have hlen : (resize width ws).length = width := by
    simp only [resize, List.length_take, List.length_append, List.length_replicate]
    omega
  refine List.ext_getElem (by simp [hlen]) fun i hi _ => ?_
  rw [List.length_set, hlen] at hi
  rw [List.getElem_set, List.getElem_set]
  split_ifs with hk
  · rfl
  · have hz := h i (Ne.symm hk)
    simp only [resize, List.getElem_take, List.getElem_replicate]
    by_cases hw : i < ws.length
    · rw [List.getElem_append_left hw]
      simpa [List.getD_eq_getElem?_getD, hw] using hz
    · rw [List.getElem_append_right (by omega), List.getElem_replicate]

/-- **`orderSubtree` computes the words of a tree and sorts it.**  It changes the
children and the words of its nodes only. -/
theorem orderSubtree_spec {terminalToLabel : Ptr → Option Label} {width : ℕ} {t : Tree} {h : Nodes} {fuel : ℕ}
    (hlink : t.Linked h) (hnd : t.ptrs.Nodup) (hlab : ∀ u ∈ t.subtrees, terminalToLabel u.ptr = u.terminalToLabel)
    (hun : t.Uncollapsed) (hblank : ∀ p x m, Tree.leaf p x m ∈ t.subtrees → Blank h p x) (hw : Within width t.labels)
    (h32 : ∀ x ∈ t.labels, x < 2 ^ 32) (hfuel : t.subtrees.length ≤ fuel) :
    ∃ h', orderSubtree terminalToLabel width fuel (some t.ptr) h = .ok (t.least, h') ∧
      (∀ u ∈ t.sort.subtrees, h' u.ptr = u.record width (h u.ptr).parent (h u.ptr).sibling) ∧
      ∀ q ∉ t.ptrs, h' q = h q := by
  induction t generalizing h fuel with
  | leaf p x m =>
      obtain ⟨fuel, rfl⟩ : ∃ k, fuel = k + 1 := ⟨fuel - 1, by simp [Tree.subtrees] at hfuel; omega⟩
      obtain ⟨hx, hxw⟩ := hw x (by simp)
      have hpred := pred_eq hx (h32 x (by simp))
      have hx' : terminalToLabel p = some x := hlab _ (Tree.mem_subtrees_self _)
      have hm := hun p x m (Tree.mem_subtrees_self _)
      rw [Tree.ptr_leaf, orderSubtree]
      simp only [hx', hpred]
      rw [if_pos (by omega)]
      refine ⟨_, rfl, fun u hu => ?_, fun q hq => ?_⟩
      · rw [List.mem_singleton.1 hu, Tree.ptr_leaf, Nodes.modify_self, Nodes.modify_self]
        have hs : Bitset.single width x = _ := Bitset.single_eq hx
        rw [Bitset.single] at hs
        obtain ⟨hl, hr⟩ := hlink
        simp only [resize_set _ (hblank p x m (Tree.mem_subtrees_self _)), hs, hl, hr, hm]
        rfl
      · have hqp : q ≠ p := by simpa using hq
        rw [Nodes.modify_of_ne _ _ hqp, Nodes.modify_of_ne _ _ hqp]
  | node p l r ihl ihr =>
      have hlen : (Tree.node p l r).subtrees.length = l.subtrees.length + r.subtrees.length + 1 := by
        simp [Tree.subtrees]
      obtain ⟨fuel, rfl⟩ : ∃ k, fuel = k + 1 := ⟨fuel - 1, by omega⟩
      obtain ⟨⟨hleft, hright⟩, hl, hr⟩ := hlink
      have inl : ∀ {u}, u ∈ l.subtrees → u ∈ (Tree.node p l r).subtrees := fun h =>
        Tree.mem_subtrees_node.2 (Or.inr (Or.inl h))
      have inr : ∀ {u}, u ∈ r.subtrees → u ∈ (Tree.node p l r).subtrees := fun h =>
        Tree.mem_subtrees_node.2 (Or.inr (Or.inr h))
      have hnone : terminalToLabel p = none := hlab _ (Tree.mem_subtrees_self _)
      rw [Tree.ptrs, List.nodup_cons, List.mem_append, not_or, List.nodup_append] at hnd
      obtain ⟨⟨hpl, hpr⟩, hndl, hndr, hapart⟩ := hnd
      -- the node gets its number of words, then the two subtrees are sorted
      set h₁ := h.modify p fun n => { n with subtreeTerminals := resize width n.subtreeTerminals } with hh₁
      have hfar₁ : ∀ q, q ≠ p → h₁ q = h q := fun q hq => Nodes.modify_of_ne _ _ hq
      have hl₁ : ∀ q ∈ l.ptrs, h₁ q = h q := fun q hq => hfar₁ q fun he => hpl (he ▸ hq)
      obtain ⟨h₂, ha, hA, hfar₂⟩ := ihl (h := h₁)
        (hl.congr fun q hq => by rw [hl₁ q hq]; exact ⟨rfl, rfl⟩) hndl (fun u hu => hlab u (inl hu))
        (fun q x m hx => hun q x m (inl hx))
        (fun q x m hx => by rw [Blank, hl₁ q (Tree.ptr_mem_ptrs hx)]; exact hblank q x m (inl hx))
        (hw.mono (by simp)) (fun x hx => h32 x (by simp [hx])) (show _ ≤ fuel by omega)
      have hr₂ : ∀ q ∈ r.ptrs, h₂ q = h q := fun q hq => by
        rw [hfar₂ q fun hq' => hapart q hq' q hq rfl, hfar₁ q fun he => hpr (he ▸ hq)]
      obtain ⟨h₃, hb, hB, hfar₃⟩ := ihr (h := h₂)
        (hr.congr fun q hq => by rw [hr₂ q hq]; exact ⟨rfl, rfl⟩) hndr (fun u hu => hlab u (inr hu))
        (fun q x m hx => hun q x m (inr hx))
        (fun q x m hx => by rw [Blank, hr₂ q (Tree.ptr_mem_ptrs hx)]; exact hblank q x m (inr hx))
        (hw.mono (by simp)) (fun x hx => h32 x (by simp [hx])) (show _ ≤ fuel by omega)
      have hp₃ : h₃ p = { h p with subtreeTerminals := resize width (h p).subtreeTerminals } := by
        rw [hfar₃ p hpr, hfar₂ p hpl, hh₁, Nodes.modify_self]
      have hp₂ : h₂ p = h₁ p := hfar₂ p hpl
      have hp₁ : h₁ p = { h p with subtreeTerminals := resize width (h p).subtreeTerminals } := Nodes.modify_self ..
      -- what the two subtrees hold in the end
      have hleft₃ : ∀ u ∈ l.sort.subtrees, h₃ u.ptr = u.record width (h u.ptr).parent (h u.ptr).sibling := by
        intro u hu
        have hmem : u.ptr ∈ l.ptrs := (Tree.ptrs_sort l).mem_iff.1 (Tree.ptr_mem_ptrs hu)
        rw [hfar₃ _ fun hq => hapart _ hmem _ hq rfl, hA u hu, hl₁ _ hmem]
      have hright₃ : ∀ u ∈ r.sort.subtrees, h₃ u.ptr = u.record width (h u.ptr).parent (h u.ptr).sibling := by
        intro u hu
        rw [hB u hu, hr₂ _ ((Tree.ptrs_sort r).mem_iff.1 (Tree.ptr_mem_ptrs hu))]
      have hwl : (h₃ l.ptr).subtreeTerminals = encode width l.subtreeTerminals := by
        have := hleft₃ l.sort (Tree.mem_subtrees_self _)
        rw [Tree.ptr_sort] at this
        rw [this, Tree.record, Tree.subtreeTerminals_sort]
      have hwr : (h₃ r.ptr).subtreeTerminals = encode width r.subtreeTerminals := by
        have := hright₃ r.sort (Tree.mem_subtrees_self _)
        rw [Tree.ptr_sort] at this
        rw [this, Tree.record, Tree.subtreeTerminals_sort]
      have hlp : l.ptr ≠ p := fun he => hpl (he ▸ Tree.ptr_mem_ptrs (Tree.mem_subtrees_self l))
      have hrp : r.ptr ≠ p := fun he => hpr (he ▸ Tree.ptr_mem_ptrs (Tree.mem_subtrees_self r))
      have hl₁' : (h₁ p).leftChild = some l.ptr := by rw [hp₁]; exact hleft
      have hr₂' : (h₂ p).rightChild = some r.ptr := by rw [hp₂, hp₁]; exact hright
      -- the node itself
      obtain ⟨h', hrun, hroot, hrest⟩ : ∃ h', orderSubtree terminalToLabel width (fuel + 1) (some p) h =
            .ok (min l.least r.least, h') ∧
          h' p = (Tree.sortedNode p l.sort r.sort).record width (h p).parent (h p).sibling ∧
          ∀ q, q ≠ p → h' q = h₃ q := by
        rw [orderSubtree]
        simp only [hnone, ← hh₁, hl₁', ha, bind, Except.bind, hr₂', hb]
        rcases lt_or_ge r.least l.least with hlt | hge
        · rw [if_pos hlt]
          have hsort : Tree.sortedNode p l.sort r.sort = .node p r.sort l.sort := by
            rw [Tree.sortedNode, Tree.least_sort, Tree.least_sort, if_pos hlt]
          simp only [Nodes.modify_self, hp₃, hleft, hright, Nodes.modify_of_ne _ _ hlp, Nodes.modify_of_ne _ _ hrp, hwl,
            hwr]
          refine ⟨_, rfl, ?_, fun q hq => ?_⟩
          · rw [Nodes.modify_self, Nodes.modify_self, hp₃, hsort, Bitset.or_encode]
            simp only [Tree.record, Tree.leftPtr, Tree.rightPtr, Tree.ptr_sort, hleft, hright, Tree.subtreeTerminals,
              Tree.subtreeTerminals_sort]
          · rw [Nodes.modify_of_ne _ _ hq, Nodes.modify_of_ne _ _ hq]
        · rw [if_neg (not_lt.2 hge)]
          have hsort : Tree.sortedNode p l.sort r.sort = .node p l.sort r.sort := by
            rw [Tree.sortedNode, Tree.least_sort, Tree.least_sort, if_neg (not_lt.2 hge)]
          simp only [hp₃, hleft, hright, hwl, hwr]
          refine ⟨_, rfl, ?_, fun q hq => Nodes.modify_of_ne _ _ hq⟩
          rw [Nodes.modify_self, hp₃, hsort, Bitset.or_encode]
          simp only [Tree.record, Tree.leftPtr, Tree.rightPtr, Tree.ptr_sort, hleft, hright, Tree.subtreeTerminals,
            Tree.subtreeTerminals_sort]
      refine ⟨h', hrun, fun u hu => ?_, fun q hq => ?_⟩
      · rcases Tree.mem_subtrees_sortedNode.1 hu with rfl | hu | hu
        · rw [Tree.ptr_sortedNode, hroot]
        · have hmem : u.ptr ∈ l.ptrs := (Tree.ptrs_sort l).mem_iff.1 (Tree.ptr_mem_ptrs hu)
          rw [hrest _ fun he => hpl (he ▸ hmem), hleft₃ u hu]
        · have hmem : u.ptr ∈ r.ptrs := (Tree.ptrs_sort r).mem_iff.1 (Tree.ptr_mem_ptrs hu)
          rw [hrest _ fun he => hpr (he ▸ hmem), hright₃ u hu]
      · rw [Tree.ptrs, List.mem_cons, List.mem_append, not_or, not_or] at hq
        rw [hrest q hq.1, hfar₃ q hq.2.2, hfar₂ q hq.2.1, hfar₁ q hq.1]


/-- Two stored trees below a sorted node are a stored tree. -/
theorem stored_sortedNode {width : ℕ} {h : Nodes} {parent sibling : Option Ptr} {p : Ptr} {l r : Tree}
    (hp : h p = Tree.record width parent sibling (.sortedNode p l r))
    (hl : l.Stored width h (some p) (some r.ptr)) (hr : r.Stored width h (some p) (some l.ptr)) :
    (Tree.sortedNode p l r).Stored width h parent sibling := by
  unfold Tree.sortedNode at hp ⊢
  split_ifs at hp ⊢
  · exact ⟨hp, hr, hl⟩
  · exact ⟨hp, hl, hr⟩

/-- A stored tree is stored again after it was sorted. -/
theorem stored_sort {width width' : ℕ} {h h' : Nodes} {t : Tree} {parent sibling : Option Ptr}
    (ht : t.Stored width h parent sibling) (hnodes : ∀ u ∈ t.sort.subtrees,
      h' u.ptr = u.record width' (h u.ptr).parent (h u.ptr).sibling) : t.sort.Stored width' h' parent sibling := by
  induction t generalizing parent sibling with
  | leaf p x m =>
      have hp : h p = _ := ht
      have hp' := hnodes (.leaf p x m) (Tree.mem_subtrees_self _)
      rw [Tree.ptr_leaf, hp] at hp'
      exact hp'
  | node p l r ihl ihr =>
      have hroot := hnodes _ (Tree.mem_subtrees_self _)
      rw [Tree.ptr_sort, ht.root] at hroot
      refine stored_sortedNode hroot ?_ ?_
      · rw [Tree.ptr_sort]
        exact ihl ht.2.1 fun u hu => hnodes u (Tree.mem_subtrees_sortedNode.2 (Or.inr (Or.inl hu)))
      · rw [Tree.ptr_sort]
        exact ihr ht.2.2 fun u hu => hnodes u (Tree.mem_subtrees_sortedNode.2 (Or.inr (Or.inr hu)))

/-- **`orderSubtrees` computes the words of all trees and sorts them.** -/
theorem orderSubtrees_spec {terminalToLabel : Ptr → Option Label} {width : ℕ} {F : Forest} {h : Nodes} {fuel : ℕ}
    (hlink : ∀ t ∈ F, t.Linked h) (hnd : F.ptrs.Nodup)
    (hlab : ∀ u ∈ F.subtrees, terminalToLabel u.ptr = u.terminalToLabel) (hun : ∀ t ∈ F, t.Uncollapsed)
    (hblank : ∀ p x m, Tree.leaf p x m ∈ F.subtrees → Blank h p x) (hw : ∀ t ∈ F, Within width t.labels)
    (h32 : ∀ t ∈ F, ∀ x ∈ t.labels, x < 2 ^ 32) (hfuel : F.subtrees.length ≤ fuel) :
    ∃ h', orderSubtrees terminalToLabel width fuel (F.map Tree.ptr) h = .ok h' ∧
      (∀ t ∈ F, ∀ u ∈ t.sort.subtrees, h' u.ptr = u.record width (h u.ptr).parent (h u.ptr).sibling) ∧
      ∀ q ∉ F.ptrs, h' q = h q := by
  induction F generalizing h with
  | nil => exact ⟨h, rfl, fun t ht => (List.not_mem_nil ht).elim, fun _ _ => rfl⟩
  | cons t F ih =>
      rw [Forest.ptrs, List.flatMap_cons, List.nodup_append] at hnd
      obtain ⟨hndt, hndF, hapart⟩ := hnd
      rw [Forest.subtrees, List.flatMap_cons, List.length_append] at hfuel
      have mem : ∀ {u}, u ∈ t.subtrees → u ∈ Forest.subtrees (t :: F) := fun h =>
        Forest.mem_subtrees.2 ⟨t, List.mem_cons_self .., h⟩
      have mem' : ∀ {u}, u ∈ Forest.subtrees F → u ∈ Forest.subtrees (t :: F) := fun h => by
        obtain ⟨v, hv, hu⟩ := Forest.mem_subtrees.1 h
        exact Forest.mem_subtrees.2 ⟨v, List.mem_cons_of_mem _ hv, hu⟩
      have hptrs : ∀ u ∈ F, ∀ q ∈ u.ptrs, q ∈ Forest.ptrs F := fun u hu q hq => List.mem_flatMap.2 ⟨u, hu, hq⟩
      obtain ⟨h₁, ht, hnodes₁, hfar₁⟩ := orderSubtree_spec (hlink t (List.mem_cons_self ..)) hndt
        (fun u hu => hlab u (mem hu)) (hun t (List.mem_cons_self ..)) (fun p x m hx => hblank p x m (mem hx))
        (hw t (List.mem_cons_self ..)) (h32 t (List.mem_cons_self ..)) (show _ ≤ fuel by omega)
      have hsame : ∀ q ∈ Forest.ptrs F, h₁ q = h q := fun q hq => hfar₁ q fun hq' => hapart q hq' q hq rfl
      obtain ⟨h₂, hF, hnodes₂, hfar₂⟩ := ih (h := h₁)
        (fun u hu => (hlink u (List.mem_cons_of_mem _ hu)).congr fun q hq => by
          rw [hsame q (hptrs u hu q hq)]
          exact ⟨rfl, rfl⟩)
        hndF (fun u hu => hlab u (mem' hu)) (fun u hu => hun u (List.mem_cons_of_mem _ hu))
        (fun p x m hx => by
          obtain ⟨u, hu, hxu⟩ := Forest.mem_subtrees.1 hx
          rw [Blank, hsame p (hptrs u hu p (Tree.ptr_mem_ptrs hxu))]
          exact hblank p x m (mem' hx))
        (fun u hu => hw u (List.mem_cons_of_mem _ hu)) (fun u hu => h32 u (List.mem_cons_of_mem _ hu))
        (show (Forest.subtrees F).length ≤ fuel by unfold Forest.subtrees; omega)
      refine ⟨h₂, ?_, fun u hu v hv => ?_, fun q hq => ?_⟩
      · rw [List.map_cons, orderSubtrees, ht]
        exact hF
      · have hmem : v.ptr ∈ u.ptrs := (Tree.ptrs_sort u).mem_iff.1 (Tree.ptr_mem_ptrs hv)
        rcases List.mem_cons.1 hu with rfl | hu
        · rw [hfar₂ _ fun hq => hapart _ hmem _ hq rfl, hnodes₁ v hv]
        · rw [hnodes₂ u hu v hv, hsame _ (hptrs u hu _ hmem)]
      · rw [Forest.ptrs, List.flatMap_cons, List.mem_append, not_or] at hq
        rw [hfar₂ q hq.2, hfar₁ q hq.1]

/-- **Some topologies that were read get their words and are sorted.** -/
theorem orderSubtrees_row {terminalToLabel : Ptr → Option Label} {width : ℕ} {ts : List Shape} {p : Ptr} {h : Nodes}
    {fuel : ℕ} (hst : ∀ t ∈ Shape.row (fun p t => t.build p) p ts, t.Stored 0 h none none)
    (hlab : ∀ u ∈ Forest.subtrees (Shape.row (fun p t => t.build p) p ts),
      terminalToLabel u.ptr = u.terminalToLabel)
    (hw : ∀ t ∈ ts, Within width t.labels) (h32 : ∀ t ∈ ts, ∀ x ∈ t.labels, x < 2 ^ 32)
    (hfuel : Shape.sizes ts ≤ fuel) :
    ∃ h', orderSubtrees terminalToLabel width fuel ((Shape.row (fun p t => t.build p) p ts).map Tree.ptr) h = .ok h' ∧
      (∀ t ∈ Shape.row (fun p t => t.place p) p ts, t.Stored width h' none none) ∧
      ∀ q ∉ List.range' p (Shape.sizes ts), h' q = h q := by
  have hptrs := Shape.ptrs_row (f := fun p t => t.build p) (fun p t => (Shape.ptrs_build p t).symm ▸ List.Perm.refl _)
    p ts
  obtain ⟨h', hrun, hnodes, hfar⟩ := orderSubtrees_spec (F := Shape.row (fun p t => t.build p) p ts) (h := h)
    (fun t ht => (hst t ht).linked) (hptrs.nodup_iff.2 List.nodup_range') hlab
    (fun t ht q x m hq => by
      obtain ⟨r, u, -, rfl⟩ := Shape.mem_row ht
      exact Shape.eq_empty_of_mem_build hq)
    (fun q x m hq i _ => by
      obtain ⟨t, ht, hq⟩ := Forest.mem_subtrees.1 hq
      obtain ⟨parent, sibling, hq⟩ := (hst t ht).of_mem hq
      rw [show h q = _ from hq]
      rfl)
    (fun t ht => by
      obtain ⟨r, u, hu, rfl⟩ := Shape.mem_row ht
      exact (Shape.labels_build r u).symm ▸ hw u hu)
    (fun t ht => by
      obtain ⟨r, u, hu, rfl⟩ := Shape.mem_row ht
      exact (Shape.labels_build r u).symm ▸ h32 u hu)
    (show _ ≤ fuel by
      rw [← List.length_map Tree.ptr, Forest.map_ptr_subtrees, hptrs.length_eq, List.length_range']
      exact hfuel)
  refine ⟨h', hrun, fun t ht => ?_, fun q hq => hfar q fun hq' => hq (hptrs.mem_iff.1 hq')⟩
  rw [Shape.row_place] at ht
  obtain ⟨u, hu, rfl⟩ := List.mem_map.1 ht
  exact stored_sort (hst u hu) (hnodes u hu)

/-- A relation of which one of any two elements has it sorts a list. -/
theorem pairwise_insertionSort {α : Type*} {r : α → α → Prop} [DecidableRel r] (trans : ∀ a b c, r a b → r b c → r a c)
    {l : List α} (h : l.Pairwise fun a b => r a b ∨ r b a) : (l.insertionSort r).Pairwise r := by
  have insert : ∀ {l : List α} {a : α}, l.Pairwise r → (∀ b ∈ l, r a b ∨ r b a) →
      (l.orderedInsert r a).Pairwise r := by
    intro l a hl ha
    induction l with
    | nil => exact List.pairwise_singleton ..
    | cons b l ih =>
        rw [List.pairwise_cons] at hl
        rw [List.orderedInsert]
        split_ifs with hab
        · refine List.pairwise_cons.2 ⟨fun c hc => ?_, List.pairwise_cons.2 hl⟩
          rcases List.mem_cons.1 hc with rfl | hc
          · exact hab
          · exact trans a b c hab (hl.1 c hc)
        · refine List.pairwise_cons.2 ⟨fun c hc => ?_, ih hl.2 fun c hc => ha c (List.mem_cons_of_mem _ hc)⟩
          rcases List.mem_cons.1 ((List.perm_orderedInsert r a l).mem_iff.1 hc) with rfl | hc
          · exact (ha b (List.mem_cons_self ..)).resolve_left hab
          · exact hl.1 c hc
  induction l with
  | nil => exact List.Pairwise.nil
  | cons a l ih =>
      rw [List.pairwise_cons] at h
      exact insert (ih h.2) fun b hb => h.1 b ((List.perm_insertionSort r l).mem_iff.1 hb)

end Graph

namespace Forest

/-- The forest with its children and its trees sorted. -/
def sort (F : Forest) : Forest := (F.map Tree.sort).insertionSort fun t u => t.least < u.least

/-- Sorting a forest sorts its trees and their order. -/
theorem sort_perm (F : Forest) : F.sort.Perm (F.map Tree.sort) := List.perm_insertionSort ..

/-- The trees of a sorted forest. -/
theorem mem_sort {F : Forest} {t : Tree} : t ∈ F.sort ↔ ∃ u ∈ F, u.sort = t :=
  (sort_perm F).mem_iff.trans List.mem_map

/-- Sorting a forest keeps its leaves. -/
theorem mem_leaf_sort {F : Forest} {p : Ptr} {x : Label} {m : Finset Label} :
    Tree.leaf p x m ∈ F.sort.subtrees ↔ Tree.leaf p x m ∈ F.subtrees := by
  simp only [mem_subtrees, mem_sort]
  constructor
  · rintro ⟨-, ⟨u, hu, rfl⟩, h⟩
    exact ⟨u, hu, Tree.mem_leaf_sort.1 h⟩
  · rintro ⟨u, hu, h⟩
    exact ⟨_, ⟨u, hu, rfl⟩, Tree.mem_leaf_sort.2 h⟩

/-- Sorting a forest keeps its nodes. -/
theorem ptrs_sort (F : Forest) : F.sort.ptrs.Perm F.ptrs := by
  refine ((sort_perm F).flatMap_right Tree.ptrs).trans ?_
  rw [List.flatMap_map]
  exact List.Perm.flatMap_left F fun t _ => t.ptrs_sort

/-- Two trees of a distinct forest have no common label. -/
theorem Distinct.pairwise {F : Forest} (hF : F.Distinct) : F.Pairwise fun t u => Disjoint t.labels u.labels := by
  induction F with
  | nil => exact List.Pairwise.nil
  | cons t F ih =>
      refine List.pairwise_cons.2 ⟨fun u hu => hF.2.2.mono_right fun x hx => mem_labels.2 ⟨u, hu, hx⟩, ih hF.2.1⟩

/-- **The sorted forest is valid.** -/
theorem valid_sort {F : Forest} (hF : F.Distinct) (hnd : F.ptrs.Nodup) (hun : ∀ t ∈ F, t.Uncollapsed)
    (hpos : ∀ x ∈ F.labels, 0 < x) : F.sort.Valid := by
  have hperm := sort_perm F
  have hdis : (F.map Tree.sort).Pairwise fun t u => Disjoint t.subtreeTerminals u.subtreeTerminals := by
    refine List.pairwise_map.2 (hF.pairwise.imp_of_mem fun {t u} ht hu hd => ?_)
    rwa [Tree.subtreeTerminals_sort, Tree.subtreeTerminals_sort, (hun t ht).subtreeTerminals_eq,
      (hun u hu).subtreeTerminals_eq]
  refine ⟨fun t ht => ?_, ?_, ?_, (ptrs_sort F).nodup_iff.2 hnd⟩
  · obtain ⟨u, hu, rfl⟩ := mem_sort.1 ht
    exact Tree.valid_sort (hF.of_mem hu) (hun u hu) fun x hx => hpos x (mem_labels.2 ⟨u, hu, hx⟩)
  · exact (hperm.pairwise_iff fun h => h.symm).2 hdis
  · have trans : ∀ t u v : Tree, t.least < u.least → u.least < v.least → t.least < v.least := fun _ _ _ => Nat.lt_trans
    refine Graph.pairwise_insertionSort trans (hdis.imp fun {t u} hd => ?_)
    refine lt_or_gt_of_ne fun he => Finset.disjoint_left.1 hd
      (Tree.labels_subset_subtreeTerminals t t.least_mem_labels) ?_
    exact he ▸ Tree.labels_subset_subtreeTerminals u u.least_mem_labels

/-- **The smallest labels sort the roots.** -/
theorem map_ptr_sort {F : Forest} (hF : F.Distinct) (hnd : F.ptrs.Nodup) (hun : ∀ t ∈ F, t.Uncollapsed) {width : ℕ}
    (hw : ∀ t ∈ F, Within width t.labels) {h : Graph.Nodes}
    (hwords : ∀ t ∈ F, (h t.ptr).subtreeTerminals = encode width t.subtreeTerminals) :
    F.sort.map Tree.ptr = (F.map Tree.ptr).insertionSort fun a b => h.hasSmallestTerminal a b = true := by
  have hptr : F.map Tree.ptr = (F.map Tree.sort).map Tree.ptr := by
    rw [List.map_map]
    exact List.map_congr_left fun t _ => (Tree.ptr_sort t).symm
  rw [hptr]
  refine List.map_insertionSort _ _ _ _ fun t ht u hu => ?_
  have hval := valid_sort hF hnd hun fun x hx => by
    obtain ⟨t, ht, hx⟩ := mem_labels.1 hx
    exact (hw t ht x hx).1
  obtain ⟨t, htF, rfl⟩ := List.mem_map.1 ht
  obtain ⟨u, huF, rfl⟩ := List.mem_map.1 hu
  have ht' := mem_sort.2 ⟨t, htF, rfl⟩
  have hu' := mem_sort.2 ⟨u, huF, rfl⟩
  have words : ∀ {v}, v ∈ F → (h v.sort.ptr).subtreeTerminals = encode width v.sort.subtreeTerminals := fun hv => by
    rw [Tree.ptr_sort, Tree.subtreeTerminals_sort, hwords _ hv]
  have within : ∀ {v}, v ∈ F → Within width v.sort.subtreeTerminals := fun hv => by
    rw [Tree.subtreeTerminals_sort, (hun _ hv).subtreeTerminals_eq]
    exact hw _ hv
  by_cases he : t.sort = u.sort
  · rw [he]
    have hirr : ∀ ws : List Bitset.Word, Bitset.hasSmallest ws ws = false := by
      intro ws
      induction ws with
      | nil => rfl
      | cons w ws ih => rw [Bitset.hasSmallest, if_pos rfl, ih]
    simp [Graph.Nodes.hasSmallestTerminal, hirr]
  · exact (Tree.hasSmallestTerminal_iff (words htF) (words huF) (hval.tree _ ht') (hval.tree _ hu')
      (Finset.disjoint_left.2 fun x hx hx' => he (hval.eq_of_mem ht' hu' hx hx')) (within htF) (within huF)).symm

end Forest

namespace Graph

/-- The forest that reading some topologies returns. -/
def sorted (ts : List Shape) : Forest :=
  (Shape.row (fun p t => t.place p) 0 ts).insertionSort fun t u => t.least < u.least

/-- The sorted forest has the placed topologies. -/
theorem sorted_perm (ts : List Shape) : (sorted ts).Perm (Shape.row (fun p t => t.place p) 0 ts) :=
  List.perm_insertionSort ..

/-- The sorted forest is the sorted row. -/
theorem sorted_eq_sort (ts : List Shape) : sorted ts = Forest.sort (Shape.row (fun p t => t.build p) 0 ts) := by
  rw [sorted, Shape.row_place, Forest.sort]

/-- The sorted forest is valid. -/
theorem valid_sorted {ts : List Shape} (hts : Shape.AllDistinct ts) (hpos : ∀ t ∈ ts, ∀ x ∈ t.labels, 0 < x) :
    (sorted ts).Valid := by
  rw [sorted_eq_sort]
  refine Forest.valid_sort (Shape.distinct_row hts 0) ?_ (fun t ht => ?_) fun x hx => ?_
  · exact (Shape.ptrs_row (f := fun p t => t.build p)
      (fun p t => (Shape.ptrs_build p t).symm ▸ List.Perm.refl _) 0 ts).nodup_iff.2 List.nodup_range'
  · obtain ⟨q, u, -, rfl⟩ := Shape.mem_row ht
    exact fun p x m h => Shape.eq_empty_of_mem_build h
  · obtain ⟨t, ht, hx⟩ := Forest.mem_labels.1 hx
    obtain ⟨q, u, hu, rfl⟩ := Shape.mem_row ht
    rw [Shape.labels_build] at hx
    exact hpos u hu x hx

/-- **The smallest labels sort the roots.** -/
theorem map_ptr_sorted {ts : List Shape} (hts : Shape.AllDistinct ts) {width : ℕ} {h : Nodes}
    (hst : ∀ t ∈ Shape.row (fun p t => t.place p) 0 ts, t.Stored width h none none)
    (hw : ∀ t ∈ ts, Within width t.labels) :
    (sorted ts).map Tree.ptr = ((Shape.row (fun p t => t.build p) 0 ts).map Tree.ptr).insertionSort
      fun a b => h.hasSmallestTerminal a b = true := by
  rw [sorted_eq_sort]
  refine Forest.map_ptr_sort (Shape.distinct_row hts 0) ?_ (fun t ht => ?_)
    (show ∀ t ∈ _, Within width (Tree.labels t) from fun t ht => ?_) fun t ht => ?_
  · exact (Shape.ptrs_row (f := fun p t => t.build p)
      (fun p t => (Shape.ptrs_build p t).symm ▸ List.Perm.refl _) 0 ts).nodup_iff.2 List.nodup_range'
  · obtain ⟨q, u, -, rfl⟩ := Shape.mem_row ht
    exact fun p x m h => Shape.eq_empty_of_mem_build h
  · obtain ⟨q, u, hu, rfl⟩ := Shape.mem_row ht
    exact (Shape.labels_build q u).symm ▸ hw u hu
  · have h := (hst t.sort (by rw [Shape.row_place]; exact List.mem_map_of_mem ht)).words
    rwa [Tree.ptr_sort, Tree.subtreeTerminals_sort] at h

end Graph

/-- The two maps list the terminals of the forest. -/
structure Forest.Mapped (s : Graph.Store) (F : Forest) : Prop where
  terminalToLabel : ∀ p x, s.terminalToLabel p = some x ↔ ∃ m, Tree.leaf p x m ∈ F.subtrees
  labelToTerminal : ∀ p x, s.labelToTerminal x = some p ↔ ∃ m, Tree.leaf p x m ∈ F.subtrees

/-- **A forest that was just read**: it is well formed, the maps list its terminals
and no terminal stands for more than its label. -/
structure Forest.Fresh (width : ℕ) (s : Graph.Store) (F : Forest) : Prop where
  wellFormed : F.WellFormed width s
  mapped : F.Mapped s
  uncollapsed : ∀ p x m, Tree.leaf p x m ∈ F.subtrees → m = ∅

namespace Graph

/-- The maps of the reader are those of the sorted forest. -/
theorem Reader.AllBuilt.mapped {τ : Reader} {ts : List Shape} (hτ : Reader.AllBuilt {} τ ts) {s : Store}
    (h₁ : s.terminalToLabel = τ.terminalToLabel) (h₂ : s.labelToTerminal = τ.labelToTerminal) :
    (sorted ts).Mapped s := by
  have hsub : ∀ u, u ∈ (sorted ts).subtrees ↔ u ∈ Forest.subtrees (Shape.row (fun p t => t.place p) 0 ts) :=
    fun u => ((sorted_perm ts).flatMap_right Tree.subtrees).mem_iff
  have hleaf : ∀ p x m, Tree.leaf p x m ∈ (sorted ts).subtrees ↔
      Tree.leaf p x m ∈ Forest.subtrees (Shape.row (fun p t => t.build p) 0 ts) :=
    fun p x m => (hsub _).trans Shape.mem_leaf_row
  refine ⟨fun p x => ?_, fun p x => ?_⟩
  · rw [h₁]
    constructor
    · intro h
      have hp : p < τ.size := by
        by_contra hle
        rw [hτ.idle.tidy.fresh p (not_lt.1 hle)] at h
        cases h
      have hmem : p ∈ Forest.ptrs (Shape.row (fun p t => t.build p) 0 ts) := by
        rw [(Shape.ptrs_row (fun p t => (Shape.ptrs_build p t).symm ▸ List.Perm.refl _) 0 ts).mem_iff,
          List.mem_range'_1]
        rw [hτ.size] at hp
        exact ⟨Nat.zero_le _, hp⟩
      rw [← Forest.map_ptr_subtrees] at hmem
      obtain ⟨u, hu, rfl⟩ := List.mem_map.1 hmem
      rw [hτ.terminalToLabel u hu, Tree.terminalToLabel_eq_some] at h
      obtain ⟨q, m, rfl⟩ := h
      exact ⟨m, (hleaf q x m).2 hu⟩
    · rintro ⟨m, hm⟩
      exact hτ.terminalToLabel _ ((hleaf p x m).1 hm)
  · rw [h₂]
    constructor
    · intro h
      have hx : x ∈ τ.labels := (hτ.idle.tidy.keys x).1 (by rw [h]; rfl)
      obtain ⟨t, ht, hxt⟩ := ((hτ.labels x).1 hx).resolve_right List.not_mem_nil
      obtain ⟨q, m, hq⟩ := Forest.exists_leaf ((Shape.labels_row 0 ts).2 ⟨t, ht, hxt⟩)
      have hq' := Shape.mem_leaf_row.1 hq
      rw [hτ.labelToTerminal q x m hq'] at h
      obtain rfl := Option.some.inj h
      exact ⟨m, (hleaf q x m).2 hq'⟩
    · rintro ⟨m, hm⟩
      exact hτ.labelToTerminal p x m ((hleaf p x m).1 hm)

/-- The pass does not look at a pending label. -/
theorem sortChildren_clear (σ : Reader) :
    sortChildrenAndCollectTerminals σ.clear = sortChildrenAndCollectTerminals σ := rfl

/-- The pass does not look at what was reserved. -/
theorem sortChildren_reserve (σ : Reader) (reserved : ℕ) :
    sortChildrenAndCollectTerminals (σ.reserve reserved) = sortChildrenAndCollectTerminals σ := rfl

/-- **`ReadNewick` on the events of a text.** -/
theorem readNewick_eq (text : List Char) {n : ℕ} (r : ℕ) (hn : 0 < n) (hn' : n < 2 ^ 30) : readNewick text n r =
    if Stable (2 * n - 1) (seenTrees r (Newick.lines text)) then
      lexTrees r (Newick.lines text) >>= fun ess =>
        if (({} : Reader).trees ess).roots.any (· < moved (2 * n - 1) ((({} : Reader).trees ess).size - 1)) then
          .error .undefined
        else (sortChildrenAndCollectTerminals (({} : Reader).trees ess)).map
          fun s => (s, (({} : Reader).trees ess).size)
    else .error .undefined := by
  have hread := Reader.readTrees_eq r { reserved := 2 * n - 1 } (Newick.lines text)
  have hsafe : ({ reserved := 2 * n - 1 } : Reader).safeTrees (seenTrees r (Newick.lines text)) = true ↔
      Stable (2 * n - 1) (seenTrees r (Newick.lines text)) := Reader.safeTrees_iff rfl _
  simp only [hsafe] at hread
  rw [readNewick, if_neg (by omega), if_neg (by omega)]
  split_ifs at hread ⊢ with hstable
  · cases hlex : lexTrees r (Newick.lines text) with
    | error e =>
        rw [hlex] at hread
        cases h : Reader.readTrees r { reserved := 2 * n - 1 } (Newick.lines text) with
        | error e' =>
            rw [h] at hread
            exact congrArg Except.error (Except.error.inj hread)
        | ok σ =>
            rw [h] at hread
            cases hread
    | ok ess =>
        rw [hlex] at hread
        cases h : Reader.readTrees r { reserved := 2 * n - 1 } (Newick.lines text) with
        | error e =>
            rw [h] at hread
            cases hread
        | ok σ =>
            rw [h] at hread
            have hσ : σ.clear = (({} : Reader).trees ess).reserve (2 * n - 1) :=
              (Except.ok.inj hread).trans (Reader.trees_reserve {} (2 * n - 1) ess)
            have hreserved : σ.clear.reserved = 2 * n - 1 := by rw [hσ]; rfl
            have hsize : σ.clear.size = (({} : Reader).trees ess).size := by rw [hσ]; rfl
            have hroots : σ.clear.roots = (({} : Reader).trees ess).roots := by rw [hσ]; rfl
            have hsort : sortChildrenAndCollectTerminals σ =
                sortChildrenAndCollectTerminals (({} : Reader).trees ess) := by
              rw [← sortChildren_clear, hσ, sortChildren_reserve]
            simp only [bind, Except.bind]
            rw [hsort, ← hroots, ← hsize, show σ.reserved = 2 * n - 1 from hreserved,
              show σ.clear.roots = σ.roots from rfl, show σ.clear.size = σ.size from rfl]
            split_ifs
            · rfl
            · cases sortChildrenAndCollectTerminals (({} : Reader).trees ess) <;> rfl
  · cases h : Reader.readTrees r { reserved := 2 * n - 1 } (Newick.lines text) with
    | error e =>
        rw [h] at hread
        exact congrArg Except.error (Except.error.inj hread)
    | ok σ =>
        rw [h] at hread
        cases hread

/-- **A text of topologies is read**, when no label is `0`, none occurs twice and
their nodes fit into what is reserved. -/
theorem readNewick_events {ts : List Shape} (hts : Shape.AllDistinct ts) (hne : ts ≠ [])
    (hlab : ∀ t ∈ ts, ∀ x ∈ t.labels, 0 < x ∧ x < 2 ^ 31) {text : List Char} {n r : ℕ} (hn : 0 < n) (hn' : n < 2 ^ 30)
    (hfew : Shape.sizes ts ≤ 2 * n - 1)
    (hlex : lexTrees r (Newick.lines text) = .ok (ts.map Shape.events)) :
    ∃ s width, readNewick text n r = .ok (s, Shape.sizes ts) ∧ (sorted ts).Fresh width s := by
  have hidle : ({} : Reader).Idle :=
    ⟨⟨fun _ _ => rfl, fun _ => by simp, fun _ h => (List.not_mem_nil h).elim, fun _ h => by cases h⟩, rfl, rfl⟩
  have hbuilt := Reader.allBuilt_trees hts hidle fun _ _ _ _ => List.not_mem_nil
  have hstable : Stable (2 * n - 1) (seenTrees r (Newick.lines text)) := by
    rw [Newick.seenTrees_eq hlex]
    exact Newick.stable_of_few (by rwa [Newick.sum_nodeCount_events])
  rw [readNewick_eq text r hn hn', if_pos hstable, hlex]
  simp only [bind, Except.bind]
  set τ := ({} : Reader).trees (ts.map Shape.events)
  -- the vector has not moved
  have hstay : ¬τ.roots.any (· < moved (2 * n - 1) (τ.size - 1)) = true := by
    rw [Newick.moved_of_lt (by rw [hbuilt.size, show ({} : Reader).size = 0 from rfl]; omega)]
    simp
  rw [if_neg hstay]
  -- there is a largest label
  obtain ⟨t₀, ht₀⟩ := List.exists_mem_of_ne_nil ts hne
  have hkey : t₀.least ∈ τ.labels := (hbuilt.labels _).2 (Or.inl ⟨t₀, ht₀, t₀.least_mem⟩)
  obtain ⟨maxLabel, hmax⟩ : ∃ maxLabel, τ.labels.max? = some maxLabel := by
    cases h : τ.labels.max? with
    | none =>
        rw [List.max?_eq_none_iff.1 h] at hkey
        cases hkey
    | some maxLabel => exact ⟨maxLabel, rfl⟩
  have hw : ∀ t ∈ ts, Within ((maxLabel + 63) / 64) t.labels := by
    intro t ht x hx
    have hle : x ≤ maxLabel := (List.max?_eq_some_iff.1 hmax).2 x ((hbuilt.labels x).2 (Or.inl ⟨t, ht, hx⟩))
    exact ⟨(hlab t ht x hx).1, by omega⟩
  have hfuel : Shape.sizes ts ≤ τ.size := by
    rw [hbuilt.size]
    exact Nat.le_add_left _ _
  obtain ⟨h', hsort, hst, -⟩ := orderSubtrees_row hbuilt.stored hbuilt.terminalToLabel hw
    (fun t ht x hx => (hlab t ht x hx).2.trans (by norm_num)) hfuel
  have hroots : τ.roots = (Shape.row (fun p t => t.build p) 0 ts).map Tree.ptr := hbuilt.roots
  obtain ⟨s, hs⟩ : ∃ s : Store, s = {
      nodes := h'
      roots := τ.roots.insertionSort fun a b => h'.hasSmallestTerminal a b = true
      labelToTerminal := τ.labelToTerminal
      terminalToLabel := τ.terminalToLabel } := ⟨_, rfl⟩
  have hdone : sortChildrenAndCollectTerminals τ = .ok s := by
    rw [sortChildrenAndCollectTerminals, hmax, hs]
    simp only [hroots]
    rw [hsort]
    rfl
  refine ⟨s, (maxLabel + 63) / 64, ?_, ⟨valid_sorted hts fun t ht x hx => (hlab t ht x hx).1, fun t ht => ?_, ?_,
    fun t ht => ?_⟩, hbuilt.mapped (by rw [hs]) (by rw [hs]), fun p x m h => ?_⟩
  · rw [hdone, hbuilt.size]
    exact congrArg (fun k => Except.ok (_, k)) (Nat.zero_add _)
  · obtain ⟨q, u, hu, rfl⟩ := Shape.mem_row ((sorted_perm ts).mem_iff.1 ht)
    rw [Shape.subtreeTerminals_place]
    exact hw u hu
  · rw [map_ptr_sorted hts hst hw, hs, hroots]
  · rw [hs]
    exact hst t ((sorted_perm ts).mem_iff.1 ht)
  · obtain ⟨t, ht, hleaf⟩ := Forest.mem_subtrees.1 h
    obtain ⟨q, u, -, rfl⟩ := Shape.mem_row ((sorted_perm ts).mem_iff.1 ht)
    exact Shape.eq_empty_of_mem_place hleaf

end Graph
end Maf
