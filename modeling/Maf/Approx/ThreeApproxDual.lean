/-
# The dual bound of the 3-approximation

`src/Solver/Approximation/ThreeApproxDual.cpp`.  `computeDual3ApproxLowerBound`
looks for an active cherry of the first tree, compares it with the second tree,
and finalises a leaf, merges the cherry or cuts both leaves off, keeping one
running sum.  Its steps are the moves of `Maf.Approx.Duality`
(`dualBody_spec`), so the sum is at most the number of blocks of every agreement
forest (`computeDual3ApproxLowerBound_le`), whatever cherry is looked at first.
-/

import Maf.AgreementForest
import Maf.Approx.MutableForestView

namespace Maf
namespace Approx

open ParentWalk MutableForestView

/-- The loop of `twoActiveLeavesUnder`: walks down from the nodes on the stack into
children that hold an active leaf, until two leaves are found. -/
def twoLeavesLoop (view : MutableForestView) : ℕ → List ℕ → List Label → List Label
  | 0, _, found => found
  | _ + 1, [], found => found
  | fuel + 1, i :: stack, found =>
      if found.length < 2 then
        if view.labelOf i ≠ 0 then twoLeavesLoop view fuel stack (found ++ [view.labelOf i])
        else
          let left := (view.leftIdx i).filter (0 < view.counts ·)
          let right := (view.rightIdx i).filter (0 < view.counts ·)
          twoLeavesLoop view fuel (right.toList ++ left.toList ++ stack) found
      else found

/-- `twoActiveLeavesUnder`; `none` if there are not two. -/
def twoActiveLeavesUnder (view : MutableForestView) (start : ℕ) : Option (Label × Label) :=
  match twoLeavesLoop view (view.nodes.length + 1) [start] [] with
  | a :: b :: _ => some (a, b)
  | _ => none

/-- `findActiveCherry`: the first node in pre-order with two active leaves below and
fewer below each child. -/
def findActiveCherry (view : MutableForestView) : Option (Label × Label) :=
  ((List.range view.nodes.length).find? fun i =>
      decide (view.labelOf i = 0 ∧ view.counts i = 2 ∧ view.countAt (view.leftIdx i) < 2 ∧
        view.countAt (view.rightIdx i) < 2)).bind (twoActiveLeavesUnder view)

/-- `isActiveSiblingPair`. -/
def isActiveSiblingPair (view : MutableForestView) (aNode bNode : Ptr) : Bool :=
  if view.rootOf aNode ≠ view.rootOf bNode then false
  else
    match view.lca aNode bNode with
    | none => false
    | some m => decide (view.count m = 2)

/-- A child of `node` other than `child` with an active leaf below. -/
def pendant (view : MutableForestView) (child node : Ptr) : Option Ptr :=
  ((view.leftChild node).toList ++ (view.rightChild node).toList).find? fun ch =>
    decide (ch ≠ child ∧ 0 < view.count ch)

/-- The walk of `findBlockingW` from one leaf up to, not including, `m`. -/
def blockingWalk (view : MutableForestView) (m : Ptr) : ℕ → Ptr → Option (Ptr × Ptr)
  | 0, _ => none
  | fuel + 1, child =>
      match view.parent child with
      | none => none
      | some node =>
          if node = m then none
          else
            match pendant view child node with
            | some ch => some (ch, node)
            | none => blockingWalk view m fuel node

/-- `findBlockingW`: an active pendant subtree on the path between two leaves, and
the node it hangs from. -/
def findBlockingW (view : MutableForestView) (uNode vNode : Ptr) : Option (Ptr × Ptr) :=
  match view.lca uNode vNode with
  | none => none
  | some m =>
      match blockingWalk view m view.nodes.length uNode with
      | some w => some w
      | none => blockingWalk view m view.nodes.length vNode

/-- The variables of `computeDual3ApproxLowerBound`. -/
structure DualState where
  t1 : MutableForestView
  t2 : MutableForestView
  active : Finset Label
  dualSum : ℤ

/-- Line 5: the leaf `w` is finalised as a singleton. -/
def finalizeLeaf (s : DualState) (t2 : MutableForestView) (w : Label) (wT1 wT2 : Ptr) : DualState :=
  { t1 := s.t1.cut wT1, t2 := t2.cut wT2, active := s.active.erase w, dualSum := s.dualSum + 1 }

/-- Lines 10 to 12: cuts a blocking pendant subtree of the second tree, if there is
one. -/
def cutBlocking (t2 : MutableForestView) (uT2 vT2 : Ptr) (dualSum : ℤ) : MutableForestView × ℤ :=
  if t2.rootOf uT2 = t2.rootOf vT2 then
    match findBlockingW t2 uT2 vT2 with
    | some (w, _) => (t2.cut w, dualSum - 1)
    | none => (t2, dualSum)
  else (t2, dualSum)

/-- Lines 10 to 13: a conflict. -/
def cutPair (s : DualState) (t2 : MutableForestView) (u v : Label) (uT1 vT1 uT2 vT2 : Ptr) :
    DualState :=
  let b := cutBlocking t2 uT2 vT2 s.dualSum
  let l1 := s.t1.lca uT1 vT1
  { t1 := (s.t1.cut uT1).cut vT1
    t2 := (b.1.cut uT2).cut vT2
    active := (s.active.erase u).erase v
    dualSum := if l1 = none then b.2 + 2 else b.2 + 2 - 1 }

/-- The body of the loop for the cherry `u`, `v`; `none` if a label has no leaf. -/
def dualBody (s : DualState) (u v : Label) : Option DualState := do
  let t2 := s.t2.refreshCounts s.active
  let uT2 ← t2.nodeOf u
  let vT2 ← t2.nodeOf v
  let uT1 ← s.t1.nodeOf u
  let vT1 ← s.t1.nodeOf v
  let cu := t2.count (t2.rootOf uT2)
  let cv := t2.count (t2.rootOf vT2)
  if cu = 1 then some (finalizeLeaf s t2 u uT1 uT2)
  else if cv = 1 then some (finalizeLeaf s t2 v vT1 vT2)
  else if isActiveSiblingPair t2 uT2 vT2 then some { s with t2 := t2, active := s.active.erase u }
  else some (cutPair s t2 u v uT1 vT1 uT2 vT2)

/-- The main loop, with the search for a cherry as a parameter; `none` when the fuel
runs out. -/
def dualLoop (findCherry : MutableForestView → Finset Label → Option (Label × Label)) :
    ℕ → DualState → Option DualState
  | 0, _ => none
  | fuel + 1, s =>
      if s.active.card < 2 then some s
      else
        let s := { s with t1 := s.t1.refreshCounts s.active }
        match findCherry s.t1 s.active with
        | none => some s
        | some (u, v) => (dualBody s u v).bind (dualLoop findCherry fuel)

/-- **`computeDual3ApproxLowerBound`**, with the search for a cherry as a
parameter. -/
def computeDual3ApproxLowerBound
    (findCherry : MutableForestView → Finset Label → Option (Label × Label)) (fuel : ℕ) :
    Instance → Option ℤ
  | [F₁, F₂] =>
      (dualLoop findCherry fuel
        { t1 := ofForest F₁, t2 := ofForest F₂, active := F₁.labels, dualSum := 0 }).map fun s =>
          max 1 (if s.active.card = 1 then s.dualSum + 1 else s.dualSum)
  | _ => some 1

/-! What the functions find in a cut view. -/

section View

variable {F : Forest} {K : Finset Ptr} {v : MutableForestView} {A : Finset Label}

/-- What reaches an inner node reaches it through a child that is not cut off. -/
theorem mem_reached_node (hF : WellFormed F) (h : CutAt F K v) {q : Ptr} {l r : Tree}
    (hq : Tree.node q l r ∈ F.subtrees) {x : Label} :
    x ∈ reached (cutClusters F K) A (Tree.node q l r).labels ↔
      l.ptr ∉ K ∧ x ∈ reached (cutClusters F K) A l.labels ∨
        r.ptr ∉ K ∧ x ∈ reached (cutClusters F K) A r.labels := by
  obtain ⟨hl, hr⟩ := Forest.mem_subtrees_children hq
  have hD := hF.distinct.of_mem_subtrees hq
  have child : ∀ c, (c = l ∨ c = r) → c ∈ F.subtrees → x ∈ c.labels →
      ((∀ Y ∈ cutClusters F K, x ∈ Y → (Tree.node q l r).labels ⊆ Y) ↔
        c.ptr ∉ K ∧ ∀ Y ∈ cutClusters F K, x ∈ Y → c.labels ⊆ Y) := by
    intro c hc hcF hx
    have hcq : c.labels ⊆ (Tree.node q l r).labels := by
      rcases hc with rfl | rfl
      · exact Finset.subset_union_left
      · exact Finset.subset_union_right
    constructor
    · intro hall
      refine ⟨fun hcK => ?_, fun Y hY hxY => hcq.trans (hall Y hY hxY)⟩
      have hmem : c.labels ∈ cutClusters F K := cluster_ptr hF hcF ▸ Finset.mem_image_of_mem _ hcK
      refine Tree.not_labels_subset_child hD ?_ (hall _ hmem hx)
      rcases hc with rfl | rfl
      · exact Or.inl (Tree.mem_subtrees_self _)
      · exact Or.inr (Tree.mem_subtrees_self _)
    · rintro ⟨hcK, hall⟩ Y hY hxY
      obtain ⟨k, hk, rfl⟩ := Finset.mem_image.1 hY
      obtain ⟨w, hw, rfl⟩ := mem_nodes.1 (h.cuts_mem k hk)
      have hsub := hall _ hY hxY
      rw [cluster_ptr hF hw] at hsub ⊢
      refine (Forest.eq_or_subset_of_child hF.distinct hq hc hw hsub).resolve_left fun he => hcK ?_
      exact he ▸ hk
  unfold reached
  simp only [Finset.mem_filter]
  constructor
  · rintro ⟨hxA, hx, hall⟩
    rcases Finset.mem_union.1 hx with hx | hx
    · obtain ⟨hK, hall⟩ := (child l (Or.inl rfl) hl hx).1 hall
      exact Or.inl ⟨hK, hxA, hx, hall⟩
    · obtain ⟨hK, hall⟩ := (child r (Or.inr rfl) hr hx).1 hall
      exact Or.inr ⟨hK, hxA, hx, hall⟩
  · rintro (⟨hK, hxA, hx, hall⟩ | ⟨hK, hxA, hx, hall⟩)
    · exact ⟨hxA, Finset.mem_union_left _ hx, (child l (Or.inl rfl) hl hx).2 ⟨hK, hall⟩⟩
    · exact ⟨hxA, Finset.mem_union_right _ hx, (child r (Or.inr rfl) hr hx).2 ⟨hK, hall⟩⟩

/-- What reaches a cluster lies inside it. -/
theorem reached_subset {C : Finset (Finset Label)} {X : Finset Label} : reached C A X ⊆ X :=
  fun _ hx => (Finset.mem_filter.1 hx).2.1

/-- The number of active leaves at a child as its parent sees it. -/
def seen (F : Forest) (K : Finset Ptr) (A : Finset Label) (c : Tree) : Finset Label :=
  if c.ptr ∈ K then ∅ else reached (cutClusters F K) A c.labels

/-- What reaches a node comes from its two children. -/
theorem reached_node (hF : WellFormed F) (h : CutAt F K v) {q : Ptr} {l r : Tree}
    (hq : Tree.node q l r ∈ F.subtrees) :
    reached (cutClusters F K) A (Tree.node q l r).labels = seen F K A l ∪ seen F K A r := by
  ext x
  rw [mem_reached_node hF h hq, Finset.mem_union, seen, seen]
  by_cases hl : l.ptr ∈ K <;> by_cases hr : r.ptr ∈ K <;> simp [hl, hr]

/-- What is seen at a node lies below it. -/
theorem seen_subset {c : Tree} : seen F K A c ⊆ c.labels := by
  unfold seen
  split_ifs
  · exact Finset.empty_subset _
  · exact reached_subset

/-- The count of a node is the sum over its children. -/
theorem card_reached_node (hF : WellFormed F) (h : CutAt F K v) {q : Ptr} {l r : Tree}
    (hq : Tree.node q l r ∈ F.subtrees) :
    (reached (cutClusters F K) A (Tree.node q l r).labels).card =
      (seen F K A l).card + (seen F K A r).card := by
  rw [reached_node hF h hq, Finset.card_union_of_disjoint]
  exact (hF.distinct.of_mem_subtrees hq).2.2.mono seen_subset seen_subset

/-- A cut view whose counts are those of the active labels. -/
structure Counted (F : Forest) (K : Finset Ptr) (A : Finset Label) (v : MutableForestView) :
    Prop where
  cutAt : CutAt F K v
  count : ∀ s ∈ F.subtrees, v.count s.ptr = (reached (cutClusters F K) A s.labels).card

/-- Refreshed counts are right. -/
theorem counted_refreshCounts (hF : WellFormed F) (h : CutAt F K v) : Counted F K A (v.refreshCounts A) :=
  ⟨h.refreshCounts A, fun _ hs => h.count_eq hF hs⟩

/-- The left child is gone on to when something active is below it. -/
theorem Counted.leftIdx (hF : WellFormed F) (h : Counted F K A v) {q : Ptr} {l r : Tree}
    (hq : Tree.node q l r ∈ F.subtrees) :
    (v.leftIdx (v.indexOf q)).filter (0 < v.counts ·) =
      if 0 < (seen F K A l).card then some (v.indexOf l.ptr) else none := by
  have hmem : q ∈ v.nodes := h.cutAt.nodes ▸ mem_nodes.2 ⟨_, hq, rfl⟩
  have hcount := h.count l (Forest.mem_subtrees_children hq).1
  rw [MutableForestView.count] at hcount
  rw [h.cutAt.leftIdx, getElem?_nodes_indexOf hF h.cutAt hmem, Option.bind_some,
    h.cutAt.leftChild, (leftChild_ofForest hF).2 ⟨l, r, hq, rfl⟩, seen]
  by_cases hK : l.ptr ∈ K <;> simp [Option.filter, hK, hcount]

/-- The right child is gone on to when something active is below it. -/
theorem Counted.rightIdx (hF : WellFormed F) (h : Counted F K A v) {q : Ptr} {l r : Tree}
    (hq : Tree.node q l r ∈ F.subtrees) :
    (v.rightIdx (v.indexOf q)).filter (0 < v.counts ·) =
      if 0 < (seen F K A r).card then some (v.indexOf r.ptr) else none := by
  have hmem : q ∈ v.nodes := h.cutAt.nodes ▸ mem_nodes.2 ⟨_, hq, rfl⟩
  have hcount := h.count r (Forest.mem_subtrees_children hq).2
  rw [MutableForestView.count] at hcount
  rw [h.cutAt.rightIdx, getElem?_nodes_indexOf hF h.cutAt hmem, Option.bind_some,
    h.cutAt.rightChild, (rightChild_ofForest hF).2 ⟨l, r, hq, rfl⟩, seen]
  by_cases hK : r.ptr ∈ K <;> simp [Option.filter, hK, hcount]

/-- The children that `twoLeavesLoop` pushes. -/
def pushed (F : Forest) (K : Finset Ptr) (A : Finset Label) (c : Tree) : List Tree :=
  if 0 < (seen F K A c).card then [c] else []

/-- What is pushed for a child has the count of the child. -/
theorem sum_pushed (c : Tree) :
    ((pushed F K A c).map fun u => (reached (cutClusters F K) A u.labels).card).sum =
      (seen F K A c).card := by
  unfold pushed
  split_ifs with h
  · have hK : c.ptr ∉ K := fun hK => by simp [seen, hK] at h
    simp [seen, hK]
  · simp only [List.map_nil, List.sum_nil]; omega

/-- What is pushed for a child is the child, not cut and with active labels. -/
theorem mem_pushed {c u : Tree} (h : u ∈ pushed F K A c) :
    u = c ∧ c.ptr ∉ K ∧ (reached (cutClusters F K) A u.labels).Nonempty := by
  unfold pushed at h
  split_ifs at h with hpos
  · obtain rfl := List.mem_singleton.1 h
    have hK : u.ptr ∉ K := fun hK => by simp [seen, hK] at hpos
    rw [seen, if_neg hK, Finset.card_pos] at hpos
    exact ⟨rfl, hK, hpos⟩
  · cases h

/-- At most one index is pushed for a child. -/
theorem map_toList_pushed (c : Tree) (i : ℕ) :
    (if 0 < (seen F K A c).card then some i else none).toList =
      (pushed F K A c).map fun _ => i := by
  unfold pushed
  split_ifs <;> rfl

/-- **The invariant of the walk down.**  The trees `us` on the stack and the leaves
`found` lie apart, inside `R`, and together account for two active labels. -/
structure Walk (F : Forest) (K : Finset Ptr) (A R : Finset Label) (us : List Tree) (found : List Label) : Prop where
  stack : ∀ u ∈ us, u ∈ F.subtrees ∧ (reached (cutClusters F K) A u.labels).Nonempty ∧
    reached (cutClusters F K) A u.labels ⊆ R
  disjoint : us.Pairwise fun u w => Disjoint u.labels w.labels
  nodup : found.Nodup
  apart : ∀ x ∈ found, x ∈ R ∧ ∀ u ∈ us, x ∉ u.labels
  two : (us.map fun u => (reached (cutClusters F K) A u.labels).card).sum + found.length = 2

/-- The walk starts below a node with two active labels. -/
theorem walk_start {u : Tree} (hu : u ∈ F.subtrees) (htwo : (reached (cutClusters F K) A u.labels).card = 2) :
    Walk F K A (reached (cutClusters F K) A u.labels) [u] [] := by
  have hpos : (reached (cutClusters F K) A u.labels).Nonempty := Finset.card_pos.1 (htwo ▸ two_pos)
  exact ⟨by simp [hu, hpos], List.pairwise_singleton _ _, List.nodup_nil, by simp, by simpa using htwo⟩

/-- A leaf with something active is its label. -/
theorem Walk.leaf {R : Finset Label} {us : List Tree} {found : List Label} {p : Ptr} {l : Label} {m : Finset Label}
    (h : Walk F K A R (.leaf p l m :: us) found) : Walk F K A R us (found ++ [l]) := by
  obtain ⟨-, hne, hsub⟩ := h.stack _ (List.mem_cons_self ..)
  obtain ⟨hdu, hdus⟩ := List.pairwise_cons.1 h.disjoint
  have htwo := h.two
  simp only [Tree.labels, List.map_cons, List.sum_cons] at hne hsub hdu htwo
  have hl : l ∈ reached (cutClusters F K) A {l} := by
    obtain ⟨x, hx⟩ := hne
    obtain rfl := Finset.mem_singleton.1 (reached_subset hx)
    exact hx
  have hcard : (reached (cutClusters F K) A {l}).card = 1 := by
    refine le_antisymm ?_ (Finset.card_pos.2 ⟨l, hl⟩)
    exact (Finset.card_le_card reached_subset).trans (by simp)
  refine ⟨fun u hu => h.stack u (List.mem_cons_of_mem _ hu), hdus, List.nodup_append.2 ⟨h.nodup, by simp, ?_⟩, ?_, ?_⟩
  · intro x hx y hy hxy
    obtain rfl := List.mem_singleton.1 hy
    exact (h.apart x hx).2 _ (List.mem_cons_self ..) (by simp [hxy])
  · intro x hx
    rcases List.mem_append.1 hx with hx | hx
    · exact ⟨(h.apart x hx).1, fun u hu => (h.apart x hx).2 u (List.mem_cons_of_mem _ hu)⟩
    · obtain rfl := List.mem_singleton.1 hx
      exact ⟨hsub hl, fun u hu => Finset.disjoint_left.1 (hdu u hu) (by simp)⟩
  · simp only [List.length_append, List.length_singleton]
    omega

/-- The children that are pushed stand in for their parent. -/
theorem Walk.node (hF : WellFormed F) (hcut : CutAt F K v) {R : Finset Label} {us : List Tree} {found : List Label}
    {q : Ptr} {l r : Tree} (h : Walk F K A R (.node q l r :: us) found) :
    Walk F K A R (pushed F K A r ++ pushed F K A l ++ us) found := by
  obtain ⟨hq, -, hsub⟩ := h.stack _ (List.mem_cons_self ..)
  obtain ⟨hdu, hdus⟩ := List.pairwise_cons.1 h.disjoint
  obtain ⟨hlF, hrF⟩ := Forest.mem_subtrees_children hq
  have hchild : ∀ {c u}, (c = l ∨ c = r) → u ∈ pushed F K A c → u ∈ F.subtrees ∧
      (reached (cutClusters F K) A u.labels).Nonempty ∧ reached (cutClusters F K) A u.labels ⊆ R := by
    intro c u hc hu
    obtain ⟨rfl, hK, hn⟩ := mem_pushed hu
    refine ⟨hc.elim (fun he => he ▸ hlF) (fun he => he ▸ hrF), hn, Finset.Subset.trans (fun x hx => ?_) hsub⟩
    rw [mem_reached_node hF hcut hq]
    rcases hc with rfl | rfl
    · exact Or.inl ⟨hK, hx⟩
    · exact Or.inr ⟨hK, hx⟩
  have hinside : ∀ {c u}, (c = l ∨ c = r) → u ∈ pushed F K A c → u.labels ⊆ (Tree.node q l r).labels := by
    intro c u hc hu
    rw [(mem_pushed hu).1]
    rcases hc with rfl | rfl
    · exact Finset.subset_union_left
    · exact Finset.subset_union_right
  have hself : ∀ c, (pushed F K A c).Pairwise fun u w => Disjoint u.labels w.labels :=
    fun c => by unfold pushed; split_ifs <;> simp
  refine ⟨fun u hu => ?_, List.pairwise_append.2 ⟨List.pairwise_append.2 ⟨hself r, hself l, ?_⟩, hdus, ?_⟩, h.nodup,
    fun x hx => ⟨(h.apart x hx).1, fun u hu => ?_⟩, ?_⟩
  · rw [List.mem_append, List.mem_append] at hu
    rcases hu with (hu | hu) | hu
    · exact hchild (Or.inr rfl) hu
    · exact hchild (Or.inl rfl) hu
    · exact h.stack u (List.mem_cons_of_mem _ hu)
  · intro u hu w hw
    rw [(mem_pushed hu).1, (mem_pushed hw).1]
    exact (hF.distinct.of_mem_subtrees hq).2.2.symm
  · intro u hu w hw
    rcases List.mem_append.1 hu with hu | hu
    · exact (hdu w hw).mono_left (hinside (Or.inr rfl) hu)
    · exact (hdu w hw).mono_left (hinside (Or.inl rfl) hu)
  · have hxq := (h.apart x hx).2 _ (List.mem_cons_self ..)
    rw [List.mem_append, List.mem_append] at hu
    rcases hu with (hu | hu) | hu
    · exact fun hxu => hxq (hinside (Or.inr rfl) hu hxu)
    · exact fun hxu => hxq (hinside (Or.inl rfl) hu hxu)
    · exact (h.apart x hx).2 u (List.mem_cons_of_mem _ hu)
  · have htwo := h.two
    have hcard := card_reached_node (A := A) hF hcut hq
    simp only [List.map_cons, List.sum_cons] at htwo
    rw [List.map_append, List.map_append, List.sum_append, List.sum_append, sum_pushed, sum_pushed]
    omega

/-- What is pushed is smaller than the parent. -/
theorem size_pushed (q : Ptr) (l r : Tree) (us : List Tree) :
    ((pushed F K A r ++ pushed F K A l ++ us).map fun u => u.subtrees.length).sum <
      ((Tree.node q l r :: us).map fun u => u.subtrees.length).sum := by
  have hsize : ∀ c, ((pushed F K A c).map fun u => u.subtrees.length).sum ≤ c.subtrees.length :=
    fun c => by unfold pushed; split_ifs <;> simp
  have h₁ := hsize l
  have h₂ := hsize r
  have h₃ : (Tree.node q l r).subtrees.length = l.subtrees.length + r.subtrees.length + 1 := by simp [Tree.subtrees]
  rw [List.map_append, List.map_append, List.sum_append, List.sum_append, List.map_cons, List.sum_cons]
  omega

/-- **The walk down finds the two active leaves.**  Together the stack and the
leaves found always account for two. -/
theorem twoLeavesLoop_spec (hF : WellFormed F) (h : Counted F K A v) {R : Finset Label} :
    ∀ (fuel : ℕ) (us : List Tree) (found : List Label), Walk F K A R us found →
      (us.map fun u => u.subtrees.length).sum < fuel →
      ∃ a b, twoLeavesLoop v fuel (us.map fun u => v.indexOf u.ptr) found = [a, b] ∧ a ≠ b ∧
        a ∈ R ∧ b ∈ R := by
  intro fuel
  induction fuel with
  | zero => intro us found _ hfuel; omega
  | succ fuel ih =>
      intro us found hw hfuel
      cases us with
      | nil =>
          have hlen : found.length = 2 := by simpa using hw.two
          obtain ⟨a, b, rfl⟩ := List.length_eq_two.1 hlen
          refine ⟨a, b, by simp [twoLeavesLoop], ?_, (hw.apart a (by simp)).1, (hw.apart b (by simp)).1⟩
          simpa using hw.nodup
      | cons u us =>
          obtain ⟨huF, hne, -⟩ := hw.stack u (List.mem_cons_self ..)
          have hlt : found.length < 2 := by
            have hpos := hne.card_pos
            have htwo := hw.two
            simp only [List.map_cons, List.sum_cons] at htwo
            omega
          rw [List.map_cons]
          unfold twoLeavesLoop
          rw [if_pos hlt, h.cutAt.labelOf_indexOf hF huF]
          cases u with
          | leaf p l m =>
              have hl₀ : l ≠ 0 := hF.label_ne l (Forest.mem_labels.2 (by
                obtain ⟨t, ht, hlt⟩ := Forest.mem_subtrees.1 huF
                exact ⟨t, ht, Tree.labels_subset_of_mem_subtrees hlt (by simp)⟩))
              have hlen : (Tree.leaf p l m).subtrees.length = 1 := rfl
              rw [if_pos (show leafLabel (.leaf p l m) ≠ 0 from hl₀)]
              simp only [List.map_cons, List.sum_cons] at hfuel
              exact ih us (found ++ [l]) hw.leaf (by omega)
          | node q l r =>
              have hsize := size_pushed (F := F) (K := K) (A := A) q l r us
              rw [if_neg (show ¬leafLabel (.node q l r) ≠ 0 from fun hn => hn rfl)]
              dsimp only [Tree.ptr_node]
              rw [h.leftIdx hF huF, h.rightIdx hF huF, map_toList_pushed, map_toList_pushed]
              have hconst : ∀ c, (pushed F K A c).map (fun _ => v.indexOf c.ptr) =
                  (pushed F K A c).map fun u => v.indexOf u.ptr := fun c =>
                List.map_congr_left fun u hu => by rw [(mem_pushed hu).1]
              rw [hconst, hconst, ← List.map_append, ← List.map_append]
              exact ih _ found (hw.node hF h.cutAt) (by omega)

/-- The walk down from a node with two active labels finds them. -/
theorem twoLeavesLoop_eq (hF : WellFormed F) (h : Counted F K A v) {u : Tree} (hu : u ∈ F.subtrees)
    (htwo : (reached (cutClusters F K) A u.labels).card = 2) {fuel : ℕ} (hfuel : u.subtrees.length < fuel) :
    ∃ a b, twoLeavesLoop v fuel [v.indexOf u.ptr] [] = [a, b] ∧ a ≠ b ∧
      reached (cutClusters F K) A u.labels = {a, b} := by
  obtain ⟨a, b, hloop, hne, ha, hb⟩ :=
    twoLeavesLoop_spec hF h fuel [u] [] (walk_start hu htwo) (by simpa using hfuel)
  have hsub : ({a, b} : Finset Label) ⊆ reached (cutClusters F K) A u.labels :=
    Finset.insert_subset ha (Finset.singleton_subset_iff.2 hb)
  exact ⟨a, b, hloop, hne, (Finset.eq_of_subset_of_card_le hsub (by rw [htwo, Finset.card_pair hne])).symm⟩

/-- A subtree has no more nodes than the view. -/
theorem length_subtrees_le (h : CutAt F K v) {s : Tree} (hs : s ∈ F.subtrees) :
    s.subtrees.length ≤ v.nodes.length := by
  have hperm : ∀ t : Tree, (preOrder t).length = t.subtrees.length := by
    intro t
    induction t with
    | leaf => rfl
    | node p l r ihl ihr => simp [preOrder, Tree.subtrees, ihl, ihr, Nat.add_comm]
  obtain ⟨t, ht, hs⟩ := Forest.mem_subtrees.1 hs
  refine (Tree.length_subtrees_le hs).trans ?_
  rw [h.nodes, nodes_ofForest, List.length_map, ← hperm, List.flatMap_def]
  exact (List.sublist_flatten_of_mem (List.mem_map_of_mem ht)).length_le

/-- **`findActiveCherry` finds two labels that alone reach some node.** -/
theorem findActiveCherry_spec (hF : WellFormed F) (h : Counted F K A v) {a b : Label}
    (hab : findActiveCherry v = some (a, b)) :
    a ≠ b ∧ ∃ X ∈ F.clusters, reached (cutClusters F K) A X = {a, b} := by
  obtain ⟨i, hi, htwo⟩ := Option.bind_eq_some_iff.1 hab
  obtain ⟨hmem, -, hcount, -, -⟩ := find_spec hi
  obtain ⟨s, hs, rfl⟩ := h.cutAt.exists_of_lt hF (List.mem_range.1 hmem)
  have hcard : (reached (cutClusters F K) A s.labels).card = 2 := (h.count s hs).symm.trans hcount
  obtain ⟨a', b', hloop, hne, hreached⟩ :=
    twoLeavesLoop_eq hF h hs hcard (Nat.lt_succ_of_le (length_subtrees_le h.cutAt hs))
  rw [twoActiveLeavesUnder, hloop] at htwo
  obtain ⟨rfl, rfl⟩ := Prod.mk.inj (Option.some.inj htwo)
  exact ⟨hne, s.labels, Forest.mem_clusters_iff.2 ⟨s, hs, rfl⟩, hreached⟩

/-- A pendant child is a child in the cut view next to the one on the path. -/
theorem pendant_eq_some {child node ch : Ptr} (h : pendant v child node = some ch) :
    (v.leftChild node = some ch ∨ v.rightChild node = some ch) ∧ ch ≠ child := by
  obtain ⟨hmem, hne, -⟩ := find_spec h
  simp only [List.mem_append, Option.mem_toList] at hmem
  exact ⟨hmem, hne⟩

/-- Without a pendant the other child has nothing active below. -/
theorem pendant_eq_none {child node : Ptr} (h : pendant v child node = none) {ch : Ptr}
    (hch : v.leftChild node = some ch ∨ v.rightChild node = some ch) (hne : ch ≠ child) :
    v.count ch = 0 := by
  have hmem : ch ∈ (v.leftChild node).toList ++ (v.rightChild node).toList := by
    simp only [List.mem_append, Option.mem_toList]
    exact hch
  have := List.find?_eq_none.1 h ch hmem
  simpa [hne] using this

/-- **What the walk finds** hangs from a node of the path below `m`. -/
theorem blockingWalk_eq_some {m : Ptr} : ∀ (fuel : ℕ) (child ch node : Ptr),
    blockingWalk v m fuel child = some (ch, node) → Anc v.parent child m → child ≠ m →
    ∃ c, Anc v.parent child c ∧ v.parent c = some node ∧ Anc v.parent node m ∧ node ≠ m ∧
      (v.leftChild node = some ch ∨ v.rightChild node = some ch) ∧ ch ≠ c := by
  intro fuel
  induction fuel with
  | zero => intro child ch node h; cases h
  | succ fuel ih =>
      intro child ch node h hm hne
      unfold blockingWalk at h
      cases hp : v.parent child with
      | none => rw [hp] at h; cases h
      | some q =>
          rw [hp] at h
          have hqm := anc_of_ne hp hm hne
          dsimp only at h
          split_ifs at h with hq
          cases hpend : pendant v child q with
          | some w =>
              rw [hpend] at h
              obtain ⟨rfl, rfl⟩ := Prod.mk.inj (Option.some.inj h)
              obtain ⟨hchild, hwne⟩ := pendant_eq_some hpend
              exact ⟨child, .refl, hp, hqm, hq, hchild, hwne⟩
          | none =>
              rw [hpend] at h
              obtain ⟨c, hc, h'⟩ := ih q ch node h hqm hq
              exact ⟨c, .head hp hc, h'⟩

/-- **When the walk finds nothing** no node of the path below `m` has a pendant
child. -/
theorem blockingWalk_eq_none {ht : Ptr → ℕ} (hg : Grounded v.parent ht) {m : Ptr} :
    ∀ (fuel : ℕ) (child : Ptr), ht child ≤ fuel → blockingWalk v m fuel child = none →
    ∀ c node, Anc v.parent child c → v.parent c = some node → Anc v.parent node m → node ≠ m →
      pendant v c node = none := by
  intro fuel
  induction fuel with
  | zero => intro child hle; exact absurd (hg.pos child) (by omega)
  | succ fuel ih =>
      intro child hle h c node hc hcn hnm hne
      unfold blockingWalk at h
      cases hp : v.parent child with
      | none =>
          obtain rfl := eq_of_anc_root hp hc
          rw [hp] at hcn; cases hcn
      | some q =>
          rw [hp] at h
          dsimp only at h
          have hstep := hg.step _ _ hp
          by_cases hcc : child = c
          · subst hcc
            obtain rfl : q = node := Option.some.inj (hp.symm.trans hcn)
            rw [if_neg hne] at h
            cases hpend : pendant v child q with
            | none => rfl
            | some w => rw [hpend] at h; cases h
          · have hqc := anc_of_ne hp hc hcc
            by_cases hq : q = m
            · -- the path would pass `m` twice
              subst hq
              have h₁ := hg.le_of_anc hqc
              have h₂ := hg.step _ _ hcn
              have h₃ := hg.le_of_anc hnm
              omega
            · rw [if_neg hq] at h
              cases hpend : pendant v child q with
              | some w => rw [hpend] at h; cases h
              | none =>
                  rw [hpend] at h
                  exact ih q (by omega) h c node hqc hcn hnm hne

/-- The children of a node in a cut view are those whose parent it is. -/
theorem child_iff (hF : WellFormed F) (h : CutAt F K v) {q c : Ptr} :
    (v.leftChild q = some c ∨ v.rightChild q = some c) ↔ v.parent c = some q := by
  rw [h.leftChild, h.rightChild, h.parent_eq_some, Option.filter_eq_some_iff,
    Option.filter_eq_some_iff, leftChild_ofForest hF, rightChild_ofForest hF, parent_ofForest hF]
  simp only [decide_not, Bool.not_eq_true', decide_eq_false_iff_not]
  constructor
  · rintro (⟨⟨l, r, hs, hc⟩, hK⟩ | ⟨⟨l, r, hs, hc⟩, hK⟩)
    · exact ⟨hK, l, r, hs, Or.inl hc⟩
    · exact ⟨hK, l, r, hs, Or.inr hc⟩
  · rintro ⟨hK, l, r, hs, hc | hc⟩
    · exact Or.inl ⟨⟨l, r, hs, hc⟩, hK⟩
    · exact Or.inr ⟨⟨l, r, hs, hc⟩, hK⟩

/-- Two different children of a node are its two children. -/
theorem children_of_ne (hF : WellFormed F) (h : CutAt F K v) {q c d : Ptr}
    (hc : v.parent c = some q) (hd : v.parent d = some q) (hcd : c ≠ d) :
    ∃ s u, s ∈ F.subtrees ∧ u ∈ F.subtrees ∧ s.ptr = c ∧ u.ptr = d ∧ Disjoint s.labels u.labels ∧
      s.labels ∪ u.labels ∈ F.clusters ∧
      ∃ n ∈ F.subtrees, n.ptr = q ∧ n.labels = s.labels ∪ u.labels := by
  obtain ⟨-, hc⟩ := h.parent_eq_some.1 hc
  obtain ⟨-, hd⟩ := h.parent_eq_some.1 hd
  obtain ⟨l, r, hs, hc⟩ := (parent_ofForest hF).1 hc
  obtain ⟨l', r', hs', hd⟩ := (parent_ofForest hF).1 hd
  cases Forest.eq_of_ptr_eq hF.nodup hs hs' rfl
  obtain ⟨hl, hr⟩ := Forest.mem_subtrees_children hs
  have hD := hF.distinct.of_mem_subtrees hs
  rcases hc with hc | hc <;> rcases hd with hd | hd
  · exact absurd (hc.symm.trans hd) hcd
  · exact ⟨l, r, hl, hr, hc, hd, hD.2.2, Forest.mem_clusters_iff.2 ⟨_, hs, rfl⟩, _, hs, rfl, rfl⟩
  · refine ⟨r, l, hr, hl, hc, hd, hD.2.2.symm, Forest.mem_clusters_iff.2 ⟨_, hs, ?_⟩, _, hs, rfl, ?_⟩
    · exact Finset.union_comm _ _
    · exact Finset.union_comm _ _
  · exact absurd (hc.symm.trans hd) hcd

/-- No label reaches another leaf. -/
theorem not_anc_leaf (hF : WellFormed F) (h : CutAt F K v) {x y : Label} {p q : Ptr}
    (hx : v.nodeOf x = some p) (hy : v.nodeOf y = some q) (hxy : x ≠ y) : ¬Anc v.parent p q := by
  obtain ⟨m, hs⟩ := (h.nodeOf_eq hF).1 hx
  obtain ⟨m', hs'⟩ := (h.nodeOf_eq hF).1 hy
  intro hanc
  have hsub := ((h.anc_iff hF hs hs').1 hanc).1
  simp only [Tree.labels, Finset.singleton_subset_singleton] at hsub
  exact hxy hsub

/-- The two ways into a lowest common ancestor come from different children. -/
theorem exists_children_of_lca (hF : WellFormed F) (h : CutAt F K v) {x y : Label} {p q m : Ptr}
    (hx : v.nodeOf x = some p) (hy : v.nodeOf y = some q) (hxy : x ≠ y)
    (hm : IsLca v.parent p q (some m)) :
    ∃ c d, Anc v.parent p c ∧ Anc v.parent q d ∧ v.parent c = some m ∧ v.parent d = some m ∧
      c ≠ d := by
  obtain ⟨hpm, hqm, hlow⟩ := hm
  obtain ⟨ht, hg, -⟩ := h.exists_grounded hF
  rcases Relation.ReflTransGen.cases_tail hpm with rfl | ⟨c, hpc, hcm⟩
  · exact absurd hqm (not_anc_leaf hF h hy hx hxy.symm)
  rcases Relation.ReflTransGen.cases_tail hqm with rfl | ⟨d, hqd, hdm⟩
  · exact absurd hpm (not_anc_leaf hF h hx hy hxy)
  refine ⟨c, d, hpc, hqd, hcm, hdm, ?_⟩
  rintro rfl
  have h₁ := hg.le_of_anc (hlow c hpc hqd)
  have h₂ := hg.step _ _ hcm
  omega

/-- Two nodes below a common one have a lowest common ancestor, and `lca` finds it. -/
theorem exists_lca (hF : WellFormed F) (h : CutAt F K v) {p q m : Ptr} (hp : p ∈ v.nodes)
    (hq : q ∈ v.nodes) (hpm : Anc v.parent p m) (hqm : Anc v.parent q m) :
    ∃ n, v.lca p q = some n ∧ IsLca v.parent p q (some n) := by
  obtain ⟨ht, hg, hle⟩ := h.exists_grounded hF
  have hspec := lca_spec hg (hle p hp) (hle q hq)
  rw [← MutableForestView.lca] at hspec
  cases hl : v.lca p q with
  | none => rw [hl] at hspec; exact absurd hqm (hspec m hpm)
  | some n => rw [hl] at hspec; exact ⟨n, rfl, hspec⟩

/-- An active label makes the count of every node it reaches positive. -/
theorem Counted.count_pos (hF : WellFormed F) (h : Counted F K A v) {x : Label} {p c : Ptr}
    (hx : v.nodeOf x = some p) (hxA : x ∈ A) (hpc : Anc v.parent p c) : 0 < v.count c := by
  obtain ⟨m, hs⟩ := (h.cutAt.nodeOf_eq hF).1 hx
  obtain ⟨u, hu, rfl⟩ := h.cutAt.exists_of_anc hF hs hpc
  have hanc := (h.cutAt.anc_iff hF hs hu).1 hpc
  simp only [Tree.labels, Finset.singleton_subset_iff] at hanc
  rw [h.count u hu, Finset.card_pos]
  exact ⟨x, Finset.mem_filter.2 ⟨hxA, hanc⟩⟩

/-- **An active leaf beside the path is found by the walk.**  The path from `x`
below `m` is joined by an active leaf `y` before `m`, so some node on it has a
pendant child. -/
theorem blockingWalk_ne_none (hF : WellFormed F) (h : Counted F K A v) {x y : Label} {p q c m : Ptr}
    (hx : v.nodeOf x = some p) (hy : v.nodeOf y = some q) (hxy : x ≠ y) (hyA : y ∈ A)
    (hpc : Anc v.parent p c) (hqc : Anc v.parent q c) (hcm : v.parent c = some m) :
    blockingWalk v m v.nodes.length p ≠ none := by
  obtain ⟨mx, hsx⟩ := (h.cutAt.nodeOf_eq hF).1 hx
  obtain ⟨my, hsy⟩ := (h.cutAt.nodeOf_eq hF).1 hy
  have hp : p ∈ v.nodes := h.cutAt.nodes ▸ mem_nodes.2 ⟨_, hsx, rfl⟩
  have hq : q ∈ v.nodes := h.cutAt.nodes ▸ mem_nodes.2 ⟨_, hsy, rfl⟩
  obtain ⟨ht, hg, hle⟩ := h.cutAt.exists_grounded hF
  obtain ⟨n, -, hlca⟩ := exists_lca hF h.cutAt hp hq hpc hqc
  obtain ⟨a, b, hpa, hqb, han, hbn, hab⟩ := exists_children_of_lca hF h.cutAt hx hy hxy hlca
  have hnc : Anc v.parent n c := hlca.2.2 c hpc hqc
  have hnm : n ≠ m := by
    rintro rfl
    have h₁ := hg.le_of_anc hnc
    have h₂ := hg.step _ _ hcm
    omega
  intro hnone
  have hpend := blockingWalk_eq_none hg v.nodes.length p (hle p hp) hnone a n hpa han
    (hnc.tail hcm) hnm
  have hzero := pendant_eq_none hpend ((child_iff hF h.cutAt).2 hbn) hab.symm
  have := h.count_pos hF hy hyA hqb
  omega

/-- **`findBlockingW` finds a pendant subtree** between two leaves of one component
that are not siblings, next to a child that holds exactly one of the two. -/
theorem findBlockingW_spec (hF : WellFormed F) (h : Counted F K A v) {x y : Label} {p q : Ptr}
    (hx : v.nodeOf x = some p) (hy : v.nodeOf y = some q) (hxy : x ≠ y) (hxA : x ∈ A) (hyA : y ∈ A)
    (hroot : v.rootOf p = v.rootOf q) (hsib : isActiveSiblingPair v p q = false) :
    ∃ w n s u, findBlockingW v p q = some (w, n) ∧ w ∈ v.nodes ∧ s ∈ F.subtrees ∧ u ∈ F.subtrees ∧
      u.ptr = w ∧ s.labels ∪ u.labels ∈ F.clusters ∧ Disjoint s.labels u.labels ∧
      (x ∈ s.labels ∧ y ∉ s.labels ∪ u.labels ∨ y ∈ s.labels ∧ x ∉ s.labels ∪ u.labels) := by
  obtain ⟨mx, hsx⟩ := (h.cutAt.nodeOf_eq hF).1 hx
  obtain ⟨my, hsy⟩ := (h.cutAt.nodeOf_eq hF).1 hy
  have hp : p ∈ v.nodes := h.cutAt.nodes ▸ mem_nodes.2 ⟨_, hsx, rfl⟩
  have hq : q ∈ v.nodes := h.cutAt.nodes ▸ mem_nodes.2 ⟨_, hsy, rfl⟩
  obtain ⟨ht, hg, hle⟩ := h.cutAt.exists_grounded hF
  obtain ⟨m, hlca, hspec⟩ := exists_lca hF h.cutAt hp hq
    (ParentWalk.rootOf_spec hg _ p (hle p hp)).1
    (by rw [show ParentWalk.rootOf v.parent v.nodes.length p = v.rootOf p from rfl, hroot]
        exact (ParentWalk.rootOf_spec hg _ q (hle q hq)).1)
  obtain ⟨hpm, hqm, hlow⟩ := hspec
  have hcount : v.count m ≠ 2 := by
    intro hm
    rw [isActiveSiblingPair, if_neg (by simpa using hroot), hlca] at hsib
    simp [hm] at hsib
  -- what either walk finds is as claimed
  have found : ∀ {e o : Label} {pe po w n : Ptr}, v.nodeOf e = some pe → v.nodeOf o = some po →
      e ≠ o → IsLca v.parent pe po (some m) → blockingWalk v m v.nodes.length pe = some (w, n) →
      ∃ s u, w ∈ v.nodes ∧ s ∈ F.subtrees ∧ u ∈ F.subtrees ∧ u.ptr = w ∧
        s.labels ∪ u.labels ∈ F.clusters ∧ Disjoint s.labels u.labels ∧
        e ∈ s.labels ∧ o ∉ s.labels ∪ u.labels := by
    intro e o pe po w n he ho heo hl hwalk
    obtain ⟨me, hse⟩ := (h.cutAt.nodeOf_eq hF).1 he
    obtain ⟨mo, hso⟩ := (h.cutAt.nodeOf_eq hF).1 ho
    have hne : pe ≠ m := by
      rintro rfl
      exact not_anc_leaf hF h.cutAt ho he heo.symm hl.2.1
    obtain ⟨c, hc, hcn, hnm, hne', hchild, hwc⟩ := blockingWalk_eq_some _ _ _ _ hwalk hl.1 hne
    obtain ⟨s, u, hs, hu, rfl, rfl, hdis, hmem, nn, hnn, rfl, hnl⟩ :=
      children_of_ne hF h.cutAt hcn ((child_iff hF h.cutAt).1 hchild) hwc.symm
    refine ⟨s, u, h.cutAt.nodes ▸ mem_nodes.2 ⟨u, hu, rfl⟩, hs, hu, rfl, hmem, hdis, ?_, ?_⟩
    · have := ((h.cutAt.anc_iff hF hse hs).1 hc).1
      simpa using this
    · -- otherwise the node would be a lower common ancestor
      intro ho'
      obtain ⟨mm, hmm, hmp⟩ := h.cutAt.exists_of_anc hF hse hl.1
      have hom := (h.cutAt.anc_iff hF hso hmm).1 (hmp ▸ hl.2.1)
      have hnm' := (h.cutAt.anc_iff hF hnn hmm).1 (hmp ▸ hnm)
      have hon : Anc v.parent po nn.ptr := by
        refine (h.cutAt.anc_iff hF hso hnn).2 ⟨?_, fun Y hY hoY => ?_⟩
        · rw [hnl]; simpa using ho'
        · exact hnm'.1.trans (hom.2 Y hY hoY)
      have hmn := hl.2.2 nn.ptr (hc.tail hcn) hon
      exact hne' (hg.eq_of_anc hnm (le_antisymm (hg.le_of_anc hmn) (hg.le_of_anc hnm)))
  have hl : IsLca v.parent p q (some m) := ⟨hpm, hqm, hlow⟩
  unfold findBlockingW
  rw [hlca]
  dsimp only
  cases hw : blockingWalk v m v.nodes.length p with
  | some wn =>
      obtain ⟨s, u, h₁, h₂, h₃, h₄, h₅, h₆, h₇, h₈⟩ := found (w := wn.1) (n := wn.2) hx hy hxy hl hw
      exact ⟨wn.1, wn.2, s, u, rfl, h₁, h₂, h₃, h₄, h₅, h₆, Or.inl ⟨h₇, h₈⟩⟩
  | none =>
      cases hw' : blockingWalk v m v.nodes.length q with
      | some wn =>
          obtain ⟨s, u, h₁, h₂, h₃, h₄, h₅, h₆, h₇, h₈⟩ :=
            found (w := wn.1) (n := wn.2) hy hx hxy.symm hl.symm hw'
          exact ⟨wn.1, wn.2, s, u, rfl, h₁, h₂, h₃, h₄, h₅, h₆, Or.inr ⟨h₇, h₈⟩⟩
      | none =>
          exfalso
          -- a third active leaf reaches `m` through the child of one of the two
          obtain ⟨mm, hmm, rfl⟩ := h.cutAt.exists_of_anc hF hsx hpm
          have hxm := (h.cutAt.anc_iff hF hsx hmm).1 hpm
          have hym := (h.cutAt.anc_iff hF hsy hmm).1 hqm
          simp only [Tree.labels, Finset.singleton_subset_iff] at hxm hym
          have hsub : ({x, y} : Finset Label) ⊆ reached (cutClusters F K) A mm.labels := by
            intro z hz
            rcases Finset.mem_insert.1 hz with rfl | hz
            · exact Finset.mem_filter.2 ⟨hxA, hxm⟩
            · obtain rfl := Finset.mem_singleton.1 hz
              exact Finset.mem_filter.2 ⟨hyA, hym⟩
          obtain ⟨z, hz, hzxy⟩ : ∃ z ∈ reached (cutClusters F K) A mm.labels,
              z ∉ ({x, y} : Finset Label) := by
            by_contra hall
            push Not at hall
            refine hcount ?_
            rw [h.count mm hmm, (Finset.Subset.antisymm hall hsub), Finset.card_pair hxy]
          obtain ⟨hzA, hzm⟩ := Finset.mem_filter.1 hz
          have hzx : x ≠ z := fun he => hzxy (by simp [he])
          have hzy : y ≠ z := fun he => hzxy (by simp [he])
          have hzF : z ∈ F.labels := Forest.subset_labels (Forest.mem_clusters_iff.2 ⟨mm, hmm, rfl⟩)
            hzm.1
          obtain ⟨r, mz, hsz⟩ := Forest.exists_leaf hzF
          have hr : v.nodeOf z = some r := (h.cutAt.nodeOf_eq hF).2 ⟨mz, hsz⟩
          have hrm : Anc v.parent r mm.ptr := (h.cutAt.anc_iff hF hsz hmm).2 (by simpa using hzm)
          obtain ⟨c, d, hpc, hqd, hcm, hdm, hcd⟩ :=
            exists_children_of_lca hF h.cutAt hx hy hxy hl
          obtain ⟨e, hre, hem⟩ : ∃ e, Anc v.parent r e ∧ v.parent e = some mm.ptr := by
            rcases Relation.ReflTransGen.cases_tail hrm with he | ⟨e, hre, hem⟩
            · exact absurd (he ▸ hpm) (not_anc_leaf hF h.cutAt hx hr hzx)
            · exact ⟨e, hre, hem⟩
          have hece : e = c ∨ e = d := by
            by_contra hne
            push Not at hne
            obtain ⟨s₁, s₂, -, -, rfl, rfl, -, -, n₁, hn₁, hn₁p, -⟩ :=
              children_of_ne hF h.cutAt hcm hdm hcd
            obtain ⟨-, hc₀⟩ := h.cutAt.parent_eq_some.1 hcm
            obtain ⟨-, hd₀⟩ := h.cutAt.parent_eq_some.1 hdm
            obtain ⟨-, he₀⟩ := h.cutAt.parent_eq_some.1 hem
            obtain ⟨l, rr, hs₀, hc₁⟩ := (parent_ofForest hF).1 hc₀
            obtain ⟨l', r', hs₁, hd₁⟩ := (parent_ofForest hF).1 hd₀
            obtain ⟨l'', r'', hs₂, he₁⟩ := (parent_ofForest hF).1 he₀
            cases Forest.eq_of_ptr_eq hF.nodup hs₀ hs₁ rfl
            cases Forest.eq_of_ptr_eq hF.nodup hs₀ hs₂ rfl
            rcases hc₁ with hc₁ | hc₁ <;> rcases hd₁ with hd₁ | hd₁ <;> rcases he₁ with he₁ | he₁
            all_goals simp_all
          rcases hece with rfl | rfl
          · exact blockingWalk_ne_none hF h hx hr hzx hzA hpc hre hcm hw
          · exact blockingWalk_ne_none hF h hy hr hzy hzA hqd hre hdm hw'

end View

/-! The steps of the algorithm are moves. -/

/-- **A search for a cherry**: what it finds are two labels that alone reach some
node of the first tree. -/
def FindsCherries (F : Forest)
    (findCherry : MutableForestView → Finset Label → Option (Label × Label)) : Prop :=
  ∀ K v A a b, Counted F K A v → findCherry v A = some (a, b) →
    a ≠ b ∧ ∃ X ∈ F.clusters, reached (cutClusters F K) A X = {a, b}

/-- The search of the code finds active cherries. -/
theorem findsCherries_findActiveCherry {F : Forest} (hF : WellFormed F) :
    FindsCherries F fun v _ => findActiveCherry v :=
  fun _ _ _ _ _ h hab => findActiveCherry_spec hF h hab

section Steps

variable {t₁ t₂ : Tree} {S : Finset Label}

/-- The state of the algorithm is that of a run of moves: the views have the edges
above `K₁` and `K₂` cut, in the first tree above inactive leaves only. -/
structure Simulates (t₁ t₂ : Tree) (S : Finset Label) (K₁ K₂ : Finset Ptr) (s : DualState) :
    Prop where
  cut₁ : CutAt [t₁] K₁ s.t1
  cut₂ : CutAt [t₂] K₂ s.t2
  inactive : ∀ Y ∈ cutClusters [t₁] K₁, ∃ x, x ∉ s.active ∧ Y = {x}
  moves : Moves (Forest.clusters [t₁]) (Forest.clusters [t₂]) ⟨S, ∅, 0⟩
    ⟨s.active, cutClusters [t₂] K₂, s.dualSum⟩
  active_subset : s.active ⊆ S

/-- One more cut is one more cut cluster. -/
theorem cutClusters_insert {F : Forest} {K : Finset Ptr} {s : Tree} (hF : WellFormed F)
    (hs : s ∈ F.subtrees) : cutClusters F (insert s.ptr K) = insert s.labels (cutClusters F K) := by
  rw [cutClusters, Finset.image_insert, cluster_ptr hF hs]
  rfl

/-- With cuts above inactive leaves only, an active label reaches every node around
it. -/
theorem reached_eq_inter {C : Finset (Finset Label)} {A X : Finset Label}
    (hC : ∀ Y ∈ C, ∃ x, x ∉ A ∧ Y = {x}) : reached C A X = X ∩ A := by
  ext x
  simp only [reached, Finset.mem_filter, Finset.mem_inter]
  refine ⟨fun h => ⟨h.2.1, h.1⟩, fun h => ⟨h.2, h.1, fun Y hY hx => ?_⟩⟩
  obtain ⟨y, hy, rfl⟩ := hC Y hY
  obtain rfl := Finset.mem_singleton.1 hx
  exact absurd h.2 hy

/-- **A label whose component counts one is alone there.** -/
theorem alone_of_count {t : Tree} {K : Finset Ptr} {v : MutableForestView} {A : Finset Label}
    (hF : WellFormed [t]) (h : Counted [t] K A v) (hA : A ⊆ Forest.labels [t]) {x : Label} {p : Ptr}
    (hx : v.nodeOf x = some p) (hxA : x ∈ A) (hone : v.count (v.rootOf p) = 1) :
    ∀ y ∈ A, comp (cutClusters [t] K) y = comp (cutClusters [t] K) x → y = x := by
  intro y hy hcomp
  obtain ⟨m, hs⟩ := (h.cutAt.nodeOf_eq hF).1 hx
  obtain ⟨q, m', hs'⟩ := Forest.exists_leaf (hA hy)
  have hq : v.nodeOf y = some q := (h.cutAt.nodeOf_eq hF).2 ⟨m', hs'⟩
  have hroot := (h.cutAt.root_eq_iff hF hq hx).2 hcomp
  -- both labels reach the node that `rootOf` returns
  have mem : ∀ {z : Label} {r : Ptr} {k}, z ∈ A → Tree.leaf r z k ∈ Forest.subtrees [t] →
      v.rootOf r = v.rootOf p → ∀ u ∈ Forest.subtrees [t], v.rootOf p = u.ptr →
      z ∈ reached (cutClusters [t] K) A u.labels := by
    intro z r k hz hleaf hr u hu hup
    obtain ⟨w, hw, hwr, hzw, hK, -⟩ := h.cutAt.rootOf_spec hF hleaf
    obtain rfl := Forest.eq_of_ptr_eq hF.nodup hw hu (by rw [← hwr, ← hup]; exact hr)
    simp only [Tree.labels, Finset.singleton_subset_iff] at hzw hK
    exact Finset.mem_filter.2 ⟨hz, hzw, hK⟩
  obtain ⟨u, hu, hup, -⟩ := h.cutAt.rootOf_spec hF hs
  rw [show v.rootOf p = u.ptr from hup, h.count u hu] at hone
  obtain ⟨z, hz⟩ := Finset.card_eq_one.1 hone
  have hyz := mem hy hs' hroot u hu hup
  have hxz := mem hxA hs rfl u hu hup
  rw [hz, Finset.mem_singleton] at hyz hxz
  rw [hyz, hxz]

/-- **Every step of the algorithm is a move**, and one or two labels become
inactive. -/
theorem dualBody_spec (h₁ : WellFormed [t₁]) (h₂ : WellFormed [t₂])
    (hS₁ : Forest.labels [t₁] = S) (hS₂ : Forest.labels [t₂] = S) {K₁ K₂ : Finset Ptr} {s : DualState}
    (hs : Simulates t₁ t₂ S K₁ K₂ s) {u v : Label} (huv : u ≠ v) {X : Finset Label}
    (hX : X ∈ Forest.clusters [t₁]) (hcherry : X ∩ s.active = {u, v}) :
    ∃ s' K₁' K₂', dualBody s u v = some s' ∧ Simulates t₁ t₂ S K₁' K₂' s' ∧
      s'.active.card < s.active.card := by
  have hu : u ∈ s.active := (Finset.mem_inter.1 (hcherry ▸ by simp : u ∈ X ∩ s.active)).2
  have hv : v ∈ s.active := (Finset.mem_inter.1 (hcherry ▸ by simp : v ∈ X ∩ s.active)).2
  have hact₁ : s.active ⊆ Forest.labels [t₁] := hS₁ ▸ hs.active_subset
  have hact₂ : s.active ⊆ Forest.labels [t₂] := hS₂ ▸ hs.active_subset
  have hc₂ : Counted [t₂] K₂ s.active (s.t2.refreshCounts s.active) :=
    counted_refreshCounts h₂ hs.cut₂
  obtain ⟨pu, mu, hpu⟩ := Forest.exists_leaf (hact₂ hu)
  obtain ⟨pv, mv, hpv⟩ := Forest.exists_leaf (hact₂ hv)
  obtain ⟨qu, nu, hqu⟩ := Forest.exists_leaf (hact₁ hu)
  obtain ⟨qv, nv, hqv⟩ := Forest.exists_leaf (hact₁ hv)
  have hpu' := (hc₂.cutAt.nodeOf_eq h₂).2 ⟨mu, hpu⟩
  have hpv' := (hc₂.cutAt.nodeOf_eq h₂).2 ⟨mv, hpv⟩
  have hqu' := (hs.cut₁.nodeOf_eq h₁).2 ⟨nu, hqu⟩
  have hqv' := (hs.cut₁.nodeOf_eq h₁).2 ⟨nv, hqv⟩
  set w := s.t2.refreshCounts s.active with hw
  have node₁ : ∀ {p x m}, Tree.leaf p x m ∈ Forest.subtrees [t₁] → p ∈ (ofForest [t₁]).nodes :=
    fun h => mem_nodes.2 ⟨_, h, rfl⟩
  have node₂ : ∀ {p x m}, Tree.leaf p x m ∈ Forest.subtrees [t₂] → p ∈ (ofForest [t₂]).nodes :=
    fun h => mem_nodes.2 ⟨_, h, rfl⟩
  have leaf₁ : ∀ {p x m K}, Tree.leaf p x m ∈ Forest.subtrees [t₁] →
      cutClusters [t₁] (insert p K) = insert {x} (cutClusters [t₁] K) := fun h =>
    cutClusters_insert h₁ h
  have leaf₂ : ∀ {p x m K}, Tree.leaf p x m ∈ Forest.subtrees [t₂] →
      cutClusters [t₂] (insert p K) = insert {x} (cutClusters [t₂] K) := fun h =>
    cutClusters_insert h₂ h
  have hlt : ∀ {x}, x ∈ s.active → (s.active.erase x).card < s.active.card :=
    Finset.card_erase_lt_of_mem
  -- setting a label aside that is alone in its component
  have final : ∀ {x p q m n}, x ∈ s.active → Tree.leaf p x m ∈ Forest.subtrees [t₂] →
      Tree.leaf q x n ∈ Forest.subtrees [t₁] → w.count (w.rootOf p) = 1 →
      Simulates t₁ t₂ S (insert q K₁) (insert p K₂) (finalizeLeaf s w x q p) := by
    intro x p q m n hx hp hq hone
    refine ⟨hs.cut₁.cut h₁ (node₁ hq), hc₂.cutAt.cut h₂ (node₂ hp), fun Y hY => ?_, ?_,
      (Finset.erase_subset _ _).trans hs.active_subset⟩
    · rw [leaf₁ hq] at hY
      rcases Finset.mem_insert.1 hY with rfl | hY
      · exact ⟨x, Finset.notMem_erase x _, rfl⟩
      · obtain ⟨y, hy, rfl⟩ := hs.inactive Y hY
        exact ⟨y, fun hmem => hy (Finset.mem_of_mem_erase hmem), rfl⟩
    · rw [leaf₂ hp]
      exact hs.moves.tail (.finalize hx
        (alone_of_count h₂ hc₂ hact₂ ((hc₂.cutAt.nodeOf_eq h₂).2 ⟨m, hp⟩) hx hone))
  -- the first tree after both labels are cut off
  have cut₁ : CutAt [t₁] (insert qv (insert qu K₁)) ((s.t1.cut qu).cut qv) :=
    (hs.cut₁.cut h₁ (node₁ hqu)).cut h₁ (node₁ hqv)
  have inactive : ∀ Y ∈ cutClusters [t₁] (insert qv (insert qu K₁)),
      ∃ x, x ∉ (s.active.erase u).erase v ∧ Y = {x} := by
    intro Y hY
    rw [leaf₁ hqv, leaf₁ hqu] at hY
    rcases Finset.mem_insert.1 hY with rfl | hY
    · exact ⟨v, Finset.notMem_erase v _, rfl⟩
    rcases Finset.mem_insert.1 hY with rfl | hY
    · exact ⟨u, by simp, rfl⟩
    · obtain ⟨y, hy, rfl⟩ := hs.inactive Y hY
      exact ⟨y, fun hmem => hy (Finset.mem_of_mem_erase (Finset.mem_of_mem_erase hmem)), rfl⟩
  have hlt₂ : ((s.active.erase u).erase v).card < s.active.card :=
    (Finset.card_le_card (Finset.erase_subset _ _)).trans_lt (hlt hu)
  have hsub₂ : (s.active.erase u).erase v ⊆ S :=
    ((Finset.erase_subset _ _).trans (Finset.erase_subset _ _)).trans hs.active_subset
  simp only [dualBody, ← hw, hpu', hpv', hqu', hqv', Option.bind_eq_bind, Option.bind_some]
  split_ifs with hcu hcv hsib
  · exact ⟨_, _, _, rfl, final hu hpu hqu hcu, hlt hu⟩
  · exact ⟨_, _, _, rfl, final hv hpv hqv hcv, hlt hv⟩
  · refine ⟨_, K₁, K₂, rfl, ⟨hs.cut₁, hc₂.cutAt, fun Y hY => ?_, hs.moves.tail .merge,
      (Finset.erase_subset _ _).trans hs.active_subset⟩, hlt hu⟩
    obtain ⟨y, hy, rfl⟩ := hs.inactive Y hY
    exact ⟨y, fun hmem => hy (Finset.mem_of_mem_erase hmem), rfl⟩
  · have hl1 : s.t1.lca qu qv ≠ none := by
      -- no cut of the first tree lies around an active label
      have top : ∀ {x p m}, x ∈ s.active → Tree.leaf p x m ∈ Forest.subtrees [t₁] →
          Anc s.t1.parent p t₁.ptr := by
        intro x p m hx hp
        obtain ⟨t', ht', hsub⟩ := Forest.mem_subtrees.1 hp
        obtain rfl := List.mem_singleton.1 ht'
        refine (hs.cut₁.anc_iff h₁ hp (Forest.mem_subtrees.2
          ⟨t', ht', t'.mem_subtrees_self⟩)).2 ⟨Tree.labels_subset_of_mem_subtrees hsub, ?_⟩
        intro Y hY hxY
        obtain ⟨y, hy, rfl⟩ := hs.inactive Y hY
        simp only [Tree.labels, Finset.singleton_subset_singleton] at hxY
        exact absurd (hxY ▸ hx) hy
      have hnode : ∀ {p x m}, Tree.leaf p x m ∈ Forest.subtrees [t₁] → p ∈ s.t1.nodes := fun h =>
        hs.cut₁.nodes ▸ node₁ h
      obtain ⟨n, hn, -⟩ := exists_lca h₁ hs.cut₁ (hnode hqu) (hnode hqv) (top hu hqu) (top hv hqv)
      simp [hn]
    by_cases hroot : w.rootOf pu = w.rootOf pv
    · obtain ⟨c, n, P, W, hfind, hc, hP, hW, rfl, hPW, hdisj, hsep⟩ :=
        findBlockingW_spec h₂ hc₂ hpu' hpv' huv hu hv hroot (by simpa using hsib)
      refine ⟨_, insert qv (insert qu K₁), insert pv (insert pu (insert W.ptr K₂)), rfl,
        ⟨cut₁, ?_, inactive, ?_, hsub₂⟩, hlt₂⟩
      · simp only [cutPair, cutBlocking, if_pos hroot, hfind]
        exact ((hc₂.cutAt.cut h₂ (hc₂.cutAt.nodes ▸ hc)).cut h₂ (node₂ hpu)).cut h₂ (node₂ hpv)
      · simp only [cutPair, cutBlocking, if_pos hroot, hfind, if_neg hl1]
        rw [leaf₂ hpv, leaf₂ hpu, cutClusters_insert h₂ hW,
          show s.dualSum - 1 + 2 - 1 = s.dualSum by omega]
        exact hs.moves.tail (.pendant hX huv hcherry ((hc₂.cutAt.root_eq_iff h₂ hpu' hpv').1 hroot)
          (Forest.mem_clusters_iff.2 ⟨W, hW, rfl⟩) (Forest.mem_clusters_iff.2 ⟨P, hP, rfl⟩) hPW hdisj
          hsep)
    · refine ⟨_, insert qv (insert qu K₁), insert pv (insert pu K₂), rfl,
        ⟨cut₁, ?_, inactive, ?_, hsub₂⟩, hlt₂⟩
      · simp only [cutPair, cutBlocking, if_neg hroot]
        exact (hc₂.cutAt.cut h₂ (node₂ hpu)).cut h₂ (node₂ hpv)
      · simp only [cutPair, cutBlocking, if_neg hroot, if_neg hl1]
        rw [leaf₂ hpv, leaf₂ hpu, show s.dualSum + 2 - 1 = s.dualSum + 1 by omega]
        exact hs.moves.tail (.apart hX huv hcherry fun hcomp =>
          hroot ((hc₂.cutAt.root_eq_iff h₂ hpu' hpv').2 hcomp))

/-- **The loop ends after a run of moves.** -/
theorem dualLoop_spec (h₁ : WellFormed [t₁]) (h₂ : WellFormed [t₂])
    (hS₁ : Forest.labels [t₁] = S) (hS₂ : Forest.labels [t₂] = S)
    {findCherry : MutableForestView → Finset Label → Option (Label × Label)}
    (hfind : FindsCherries [t₁] findCherry) :
    ∀ (fuel : ℕ) (K₁ K₂ : Finset Ptr) (s : DualState), Simulates t₁ t₂ S K₁ K₂ s →
      s.active.card < fuel →
      ∃ s' K₁' K₂', dualLoop findCherry fuel s = some s' ∧ Simulates t₁ t₂ S K₁' K₂' s' := by
  intro fuel
  induction fuel with
  | zero => intro K₁ K₂ s _ hlt; omega
  | succ fuel ih =>
      intro K₁ K₂ s hs hlt
      unfold dualLoop
      split_ifs with hcard
      · exact ⟨s, K₁, K₂, rfl, hs⟩
      · have hact₁ : s.active ⊆ Forest.labels [t₁] := hS₁ ▸ hs.active_subset
        have hs' : Simulates t₁ t₂ S K₁ K₂ { s with t1 := s.t1.refreshCounts s.active } :=
          ⟨hs.cut₁.refreshCounts _, hs.cut₂, hs.inactive, hs.moves, hs.active_subset⟩
        dsimp only
        cases hc : findCherry (s.t1.refreshCounts s.active) s.active with
        | none => exact ⟨_, K₁, K₂, rfl, hs'⟩
        | some uv =>
            obtain ⟨u, v⟩ := uv
            obtain ⟨huv, X, hX, hcherry⟩ := hfind K₁ _ _ u v
              (counted_refreshCounts h₁ hs.cut₁) hc
            rw [reached_eq_inter hs.inactive] at hcherry
            obtain ⟨s'', K₁', K₂', hbody, hs'', hdec⟩ :=
              dualBody_spec h₁ h₂ hS₁ hS₂ hs' huv hX hcherry
            dsimp only at hdec ⊢
            rw [hbody, Option.bind_some]
            exact ih K₁' K₂' s'' hs'' (by omega)

/-- More fuel changes nothing. -/
theorem dualLoop_of_le {findCherry : MutableForestView → Finset Label → Option (Label × Label)} :
    ∀ {fuel fuel' : ℕ} {s s' : DualState}, fuel ≤ fuel' → dualLoop findCherry fuel s = some s' →
      dualLoop findCherry fuel' s = some s' := by
  intro fuel
  induction fuel with
  | zero => intro fuel' s s' _ h; cases h
  | succ fuel ih =>
      intro fuel' s s' hle h
      obtain ⟨fuel', rfl⟩ := Nat.exists_eq_succ_of_ne_zero (by omega : fuel' ≠ 0)
      unfold dualLoop at h ⊢
      split_ifs at h ⊢ with hcard
      · exact h
      · dsimp only at h ⊢
        cases hc : findCherry (s.t1.refreshCounts s.active) s.active with
        | none => rw [hc] at h; exact h
        | some uv =>
            rw [hc] at h
            obtain ⟨s'', hbody, h⟩ := Option.bind_eq_some_iff.1 h
            exact Option.bind_eq_some_iff.2 ⟨s'', hbody, ih (by omega) h⟩

/-- **The 3-approximation bounds `k*` from below**, whatever cherries the search
finds; the search of the source is one. -/
theorem computeDual3ApproxLowerBound_le (h₁ : WellFormed [t₁]) (h₂ : WellFormed [t₂])
    (hS₁ : t₁.labels = S) (hS₂ : t₂.labels = S) :
    FindsCherries [t₁] (fun v _ => findActiveCherry v) ∧
      ∀ findCherry, FindsCherries [t₁] findCherry → ∃ L : ℤ,
        (∀ fuel, S.card < fuel →
          computeDual3ApproxLowerBound findCherry fuel [[t₁], [t₂]] = some L) ∧
        1 ≤ L ∧ L ≤ kStar [[t₁], [t₂]] := by
  refine ⟨findsCherries_findActiveCherry h₁, fun findCherry hfind => ?_⟩
  have hF₁ : Forest.labels [t₁] = S := by simp [Forest.labels, hS₁]
  have hF₂ : Forest.labels [t₂] = S := by simp [Forest.labels, hS₂]
  have hI : Instance.Over [[t₁], [t₂]] S := by
    refine ⟨by simp, fun F hF => ?_, fun F hF => ?_⟩
    · rcases List.mem_pair.1 hF with rfl | rfl
      · exact h₁.distinct
      · exact h₂.distinct
    · rcases List.mem_pair.1 hF with rfl | rfl
      · exact hF₁
      · exact hF₂
  obtain ⟨s, K₁, K₂, hloop, hs⟩ := dualLoop_spec h₁ h₂ hF₁ hF₂ hfind (S.card + 1) ∅ ∅
    { t1 := ofForest [t₁], t2 := ofForest [t₂], active := S, dualSum := 0 }
    ⟨cutAt_ofForest _, cutAt_ofForest _, by simp [cutClusters], .refl, Finset.Subset.refl S⟩
    (Nat.lt_succ_self _)
  refine ⟨max 1 (if s.active.card = 1 then s.dualSum + 1 else s.dualSum), fun fuel hfuel => ?_,
    le_max_left _ _, ?_⟩
  · rw [computeDual3ApproxLowerBound, hF₁, dualLoop_of_le hfuel hloop, Option.map_some]
  · obtain ⟨f, hf, hcard⟩ := exists_isAgreement_card_eq_kStar hI
    obtain ⟨-, -, hle⟩ := hs.moves.sum_add_meets_le (hF₂ ▸ Forest.hierarchy h₂.distinct) hf
    rw [hcard] at hle
    dsimp only at hle
    have hpos := kStar_pos hI (hS₁ ▸ t₁.labels_nonempty)
    refine max_le (by exact_mod_cast hpos) ?_
    split_ifs with hone
    · -- the last active label is met once
      have hmeet : 0 < meets f (cutClusters [t₂] K₂) s.active := by
        rw [meets, Finset.card_pos]
        exact (Finset.card_pos.1 (by omega)).image _
      omega
    · omega

end Steps

/-- Two trees on three leaves with different cherries. -/
def threeLeaves : Tree × Tree :=
  (.node 0 (.node 1 (.leaf 2 1 ∅) (.leaf 3 2 ∅)) (.leaf 4 3 ∅),
    .node 5 (.node 6 (.leaf 7 1 ∅) (.leaf 8 3 ∅)) (.leaf 9 2 ∅))

/-- The two trees are well formed. -/
theorem wellFormed_threeLeaves :
    WellFormed [threeLeaves.1] ∧ WellFormed [threeLeaves.2] := by
  refine ⟨⟨?_, by decide, by decide⟩, ⟨?_, by decide, by decide⟩⟩ <;>
    simp [threeLeaves, Forest.Distinct, Forest.labels]

/-- Two trees with different cherries. -/
theorem computeDual3ApproxLowerBound_threeLeaves : ∃ L : ℤ,
    (∀ fuel, 3 < fuel → computeDual3ApproxLowerBound (fun v _ => findActiveCherry v) fuel
      [[threeLeaves.1], [threeLeaves.2]] = some L) ∧
    1 ≤ L ∧ L ≤ kStar [[threeLeaves.1], [threeLeaves.2]] := by
  have h := computeDual3ApproxLowerBound_le (S := {1, 2, 3}) wellFormed_threeLeaves.1
    wellFormed_threeLeaves.2 (by decide) (by decide)
  exact h.2 _ h.1

end Approx
end Maf
