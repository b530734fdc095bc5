/-
# Least common ancestors

`src/Solver/Cluster/LeastCommonAncestor.cpp`: the nodes of a forest are numbered
in preorder and the numbers listed along an Euler tour; the least number between
the first occurrences of two nodes is the number of their least common ancestor
(`getLeastCommonAncestor_spec`).

`nodesToPreorderNumber` and the order in which `eulerTour` enters the nodes are the
same preorder, so `preorderToInternalPreorder` is the identity and left out here;
`LcaTable.lean` has all members.  The result for nodes of different trees is the first
root between them or the like, and no caller asks for it.
-/

import Maf.SparseTable
import Maf.Tree

namespace Maf.Cluster

/-- The vectors that `eulerTour` fills. -/
structure Tour where
  preorderToNode : List Tree := []
  firstOccurences : List ℕ := []
  preorderNumbers : List ℕ := []

/-- The first part of `eulerTour`: a node is entered. -/
def Tour.enter (node : Tree) (s : Tour) : Tour where
  preorderToNode := s.preorderToNode ++ [node]
  firstOccurences := s.firstOccurences ++ [s.preorderNumbers.length]
  preorderNumbers := s.preorderNumbers ++ [s.preorderToNode.length]

/-- The tour comes back to a node from a child. -/
def Tour.back (preorderNumber : ℕ) (s : Tour) : Tour :=
  { s with preorderNumbers := s.preorderNumbers ++ [preorderNumber] }

/-- `eulerTour`. -/
def eulerTour : Tree → Tour → Tour
  | .leaf p x m, s => s.enter (.leaf p x m)
  | .node p l r, s =>
      let preorderNumber := s.preorderToNode.length
      (eulerTour r ((eulerTour l (s.enter (.node p l r))).back preorderNumber)).back preorderNumber

/-- The constructor of `LeastCommonAncestor`. -/
structure LeastCommonAncestor where
  tour : Tour
  rangeMinimumQuery : List (List ℕ)

/-- Tours all trees and calls `precomputeRangeMinimumQuery`. -/
def leastCommonAncestor (F : Forest) : LeastCommonAncestor :=
  let tour := F.foldl (fun s root => eulerTour root s) {}
  ⟨tour, SparseTable.build tour.preorderNumbers⟩

/-- `computeRangeMinimumQuery`. -/
def LeastCommonAncestor.computeRangeMinimumQuery (d : LeastCommonAncestor) (i j : ℕ) : ℕ :=
  SparseTable.query d.tour.preorderNumbers d.rangeMinimumQuery i j

/-- **`getLeastCommonAncestor`**; `none` is the exception for a node of another forest. -/
def LeastCommonAncestor.getLeastCommonAncestor (d : LeastCommonAncestor) (firstNode secondNode : Tree) :
    Option Tree :=
  if firstNode ∈ d.tour.preorderToNode ∧ secondNode ∈ d.tour.preorderToNode then
    let preorderA := d.tour.preorderToNode.idxOf firstNode
    let preorderB := d.tour.preorderToNode.idxOf secondNode
    let firstA := d.tour.firstOccurences.getD preorderA 0
    let firstB := d.tour.firstOccurences.getD preorderB 0
    if preorderA ≤ preorderB then d.tour.preorderToNode[d.computeRangeMinimumQuery firstA firstB]?
    else d.tour.preorderToNode[d.computeRangeMinimumQuery firstB firstA]?
  else none

/-- The numbers along the tour of a tree whose root has the number `k`. -/
def numbers : Tree → ℕ → List ℕ
  | .leaf .., k => [k]
  | .node _ l r, k => k :: numbers l (k + 1) ++ k :: numbers r (k + 1 + l.subtrees.length) ++ [k]

/-- The first occurrences of the nodes of a tree whose tour starts at `e`. -/
def firsts : Tree → ℕ → List ℕ
  | .leaf .., e => [e]
  | .node _ l r, e => e :: firsts l (e + 1) ++ firsts r (e + 1 + (numbers l 0).length + 1)

/-- How long a tour is does not depend on the number it starts with. -/
theorem length_numbers (t : Tree) (k : ℕ) : (numbers t k).length = (numbers t 0).length := by
  induction t generalizing k with
  | leaf => rfl
  | node p l r ihl ihr =>
      simp only [numbers, List.length_append, List.length_cons]
      rw [ihl (k + 1), ihr (k + 1 + _), ihl (0 + 1), ihr (0 + 1 + _)]

/-- Every node has a first visit. -/
theorem length_firsts (t : Tree) (e : ℕ) : (firsts t e).length = t.subtrees.length := by
  induction t generalizing e with
  | leaf => rfl
  | node p l r ihl ihr => simp [firsts, Tree.subtrees, ihl, ihr]

/-- **What `eulerTour` appends.** -/
theorem eulerTour_eq (t : Tree) (s : Tour) : eulerTour t s =
    ⟨s.preorderToNode ++ t.subtrees, s.firstOccurences ++ firsts t s.preorderNumbers.length,
      s.preorderNumbers ++ numbers t s.preorderToNode.length⟩ := by
  induction t generalizing s with
  | leaf p x m => rfl
  | node p l r ihl ihr =>
      unfold eulerTour
      dsimp only
      rw [ihl, ihr]
      simp only [Tour.enter, Tour.back, numbers, firsts, Tree.subtrees, List.append_assoc, List.cons_append,
        List.nil_append, List.length_append, List.length_cons, List.length_nil]
      have hk : s.preorderToNode.length + (l.subtrees.length + 1) =
          s.preorderToNode.length + 1 + l.subtrees.length := by omega
      have he : s.preorderNumbers.length + ((numbers l (s.preorderToNode.length + 1)).length + 1 + 1) =
          s.preorderNumbers.length + 1 + (numbers l 0).length + 1 := by rw [length_numbers l]; omega
      simp only [hk, he, Nat.zero_add, Nat.add_assoc]

/-- A tour stays within the numbers of its tree. -/
theorem numbers_bounds {t : Tree} {k y : ℕ} (h : y ∈ numbers t k) :
    k ≤ y ∧ y < k + t.subtrees.length := by
  induction t generalizing k with
  | leaf p x m =>
      obtain rfl := List.mem_singleton.1 h
      exact ⟨le_rfl, by simp [Tree.subtrees]⟩
  | node p l r ihl ihr =>
      simp only [numbers, List.mem_append, List.mem_cons, List.not_mem_nil, or_false] at h
      simp only [Tree.subtrees, List.length_cons, List.length_append]
      rcases h with ((rfl | h) | rfl | h) | rfl
      · omega
      · have := ihl h; omega
      · omega
      · have := ihr h; omega
      · omega

/-- The list `ys` stands in `xs` from position `e` on. -/
def Segment (xs : List ℕ) (e : ℕ) (ys : List ℕ) : Prop :=
  ∀ q < ys.length, xs.getD (e + q) 0 = ys.getD q 0

/-- The first part of a segment. -/
theorem Segment.left {xs ys zs : List ℕ} {e : ℕ} (h : Segment xs e (ys ++ zs)) : Segment xs e ys := by
  intro q hq
  rw [h q (by rw [List.length_append]; omega), List.getD_append _ _ _ _ hq]

/-- The second part of a segment. -/
theorem Segment.right {xs ys zs : List ℕ} {e : ℕ} (h : Segment xs e (ys ++ zs)) :
    Segment xs (e + ys.length) zs := by
  intro q hq
  have := h (ys.length + q) (by rw [List.length_append]; omega)
  rw [List.getD_append_right _ _ _ _ (by omega), Nat.add_sub_cancel_left] at this
  rw [Nat.add_assoc, this]

/-- The first entry of a segment. -/
theorem Segment.head {xs ys : List ℕ} {e y : ℕ} (h : Segment xs e (y :: ys)) : xs.getD e 0 = y := by
  simpa using h 0 (by simp)

/-- A segment without its first entry. -/
theorem Segment.tail {xs ys : List ℕ} {e y : ℕ} (h : Segment xs e (y :: ys)) : Segment xs (e + 1) ys := by
  have h' : Segment xs e ([y] ++ ys) := h
  exact h'.right

/-- All numbers of the segment of a tree are at least that of the root. -/
theorem Segment.le {xs : List ℕ} {e k : ℕ} {t : Tree} (h : Segment xs e (numbers t k)) {q : ℕ}
    (hq : e ≤ q) (hq' : q < e + (numbers t k).length) :
    k ≤ xs.getD q 0 ∧ xs.getD q 0 < k + t.subtrees.length := by
  have := h (q - e) (by omega)
  rw [Nat.add_sub_cancel' hq] at this
  rw [this, List.getD_eq_getElem _ _ (by omega)]
  exact numbers_bounds (List.getElem_mem _)

/-- The subtree `w` is the lowest one around `n` and `m`. -/
structure IsLca (t n m w : Tree) : Prop where
  mem : w ∈ t.subtrees
  left : n.labels ⊆ w.labels
  right : m.labels ⊆ w.labels
  least : ∀ X ∈ t.clusters, n.labels ⊆ X → m.labels ⊆ X → w.labels ⊆ X

/-- The first visits lie within the tour. -/
theorem firsts_bounds {t : Tree} {e i : ℕ} (hi : i < t.subtrees.length) :
    e ≤ (firsts t e).getD i 0 ∧ (firsts t e).getD i 0 < e + (numbers t 0).length := by
  induction t generalizing e i with
  | leaf p x m =>
      obtain rfl : i = 0 := by simpa [Tree.subtrees] using hi
      simp [firsts, numbers]
  | node p l r ihl ihr =>
      simp only [Tree.subtrees, List.length_cons, List.length_append] at hi
      simp only [firsts, numbers, List.length_append, List.length_cons, List.length_nil, List.cons_append]
      rw [length_numbers l (0 + 1), length_numbers r]
      cases i with
      | zero => rw [List.getD_cons_zero]; omega
      | succ i =>
          rw [List.getD_cons_succ]
          by_cases hl : i < l.subtrees.length
          · rw [List.getD_append _ _ _ _ (by rwa [length_firsts])]
            have := ihl (e := e + 1) hl
            omega
          · rw [List.getD_append_right _ _ _ _ (by rw [length_firsts]; omega), length_firsts]
            have := ihr (e := e + 1 + (numbers l 0).length + 1) (i := i - l.subtrees.length) (by omega)
            omega

/-- The first visits in the left child. -/
theorem firsts_left {p : Ptr} {l r : Tree} {e i : ℕ} (hi : i < l.subtrees.length) :
    (firsts (.node p l r) e).getD (i + 1) 0 = (firsts l (e + 1)).getD i 0 := by
  rw [firsts, List.cons_append, List.getD_cons_succ, List.getD_append _ _ _ _ (by rwa [length_firsts])]

/-- The first visits in the right child. -/
theorem firsts_right {p : Ptr} {l r : Tree} {e : ℕ} (i : ℕ) :
    (firsts (.node p l r) e).getD (l.subtrees.length + i + 1) 0 =
      (firsts r (e + 1 + (numbers l 0).length + 1)).getD i 0 := by
  rw [firsts, List.cons_append, List.getD_cons_succ,
    List.getD_append_right _ _ _ _ (by rw [length_firsts]; omega), length_firsts, Nat.add_sub_cancel_left]

/-- The nodes of the left child come first. -/
theorem getElem_left {p : Ptr} {l r : Tree} {i : ℕ} (hi : i < l.subtrees.length)
    (h : i + 1 < (Tree.node p l r).subtrees.length) :
    (Tree.node p l r).subtrees[i + 1] = l.subtrees[i] := by
  simp only [Tree.subtrees, List.getElem_cons_succ]
  exact List.getElem_append_left hi

/-- The nodes of the right child come last. -/
theorem getElem_right {p : Ptr} {l r : Tree} {i : ℕ} (hi : i < r.subtrees.length)
    (h : l.subtrees.length + i + 1 < (Tree.node p l r).subtrees.length) :
    (Tree.node p l r).subtrees[l.subtrees.length + i + 1] = r.subtrees[i] := by
  simp only [Tree.subtrees, List.getElem_cons_succ]
  rw [List.getElem_append_right (by omega)]
  simp

/-- The lowest subtree around two nodes of a child is the same in the parent. -/
theorem IsLca.node {p : Ptr} {l r c o n m w : Tree} (ht : (Tree.node p l r).Distinct)
    (hc : c = l ∧ o = r ∨ c = r ∧ o = l) (hn : n ∈ c.subtrees) (h : IsLca c n m w) :
    IsLca (.node p l r) n m w := by
  have hmem : w ∈ (Tree.node p l r).subtrees :=
    Tree.mem_subtrees_node.2 (hc.elim (fun h' => Or.inr (Or.inl (h'.1 ▸ h.mem)))
      fun h' => Or.inr (Or.inr (h'.1 ▸ h.mem)))
  have hd : Disjoint c.labels o.labels := by
    rcases hc with ⟨rfl, rfl⟩ | ⟨rfl, rfl⟩
    · exact ht.2.2
    · exact ht.2.2.symm
  refine ⟨hmem, h.left, h.right, fun X hX hnX hmX => ?_⟩
  have hcases : X = (Tree.node p l r).labels ∨ X ∈ c.clusters ∨ X ∈ o.clusters := by
    rcases Finset.mem_insert.1 hX with rfl | hX
    · exact Or.inl rfl
    · rcases hc with ⟨rfl, rfl⟩ | ⟨rfl, rfl⟩
      · exact Or.inr (Finset.mem_union.1 hX)
      · exact Or.inr (Finset.mem_union.1 hX).symm
  rcases hcases with rfl | hX | hX
  · exact Tree.labels_subset_of_mem_subtrees hmem
  · exact h.least X hX hnX hmX
  · obtain ⟨x, hx⟩ := n.labels_nonempty
    exact absurd (Tree.subset_labels hX (hnX hx))
      (Finset.disjoint_left.1 hd (Tree.labels_subset_of_mem_subtrees hn hx))

/-- The root is the lowest subtree around itself and any node. -/
theorem isLca_root {t m : Tree} (hm : m ∈ t.subtrees) : IsLca t t m t :=
  ⟨t.mem_subtrees_self, Finset.Subset.refl _, Tree.labels_subset_of_mem_subtrees hm, fun _ _ h _ => h⟩

/-- The root is the lowest subtree around nodes below different children. -/
theorem isLca_children {p : Ptr} {l r n m : Tree} (ht : (Tree.node p l r).Distinct) (hn : n ∈ l.subtrees)
    (hm : m ∈ r.subtrees) : IsLca (.node p l r) n m (.node p l r) := by
  refine ⟨Tree.mem_subtrees_self _, ?_, ?_, fun X hX hnX hmX => ?_⟩
  · exact (Tree.labels_subset_of_mem_subtrees hn).trans Finset.subset_union_left
  · exact (Tree.labels_subset_of_mem_subtrees hm).trans Finset.subset_union_right
  · rcases Finset.mem_insert.1 hX with rfl | hX
    · exact Finset.Subset.refl _
    · rcases Finset.mem_union.1 hX with hX | hX
      · obtain ⟨x, hx⟩ := m.labels_nonempty
        exact absurd (Tree.labels_subset_of_mem_subtrees hm hx)
          (Finset.disjoint_left.1 ht.2.2 (Tree.subset_labels hX (hmX hx)))
      · obtain ⟨x, hx⟩ := n.labels_nonempty
        exact absurd (Tree.subset_labels hX (hnX hx))
          (Finset.disjoint_left.1 ht.2.2 (Tree.labels_subset_of_mem_subtrees hn hx))

/-- **The least number between two first occurrences in a tour** belongs to the
lowest subtree around the two nodes. -/
theorem exists_isLca {t : Tree} (ht : t.Distinct) {xs : List ℕ} {e k : ℕ}
    (hseg : Segment xs e (numbers t k)) {i j : ℕ} (hij : i ≤ j) (hi : i < t.subtrees.length)
    (hj : j < t.subtrees.length) :
    (firsts t e).getD i 0 ≤ (firsts t e).getD j 0 ∧ ∃ w, ∃ hw : w < t.subtrees.length,
      SparseTable.IsMin xs ((firsts t e).getD i 0) ((firsts t e).getD j 0) (k + w) ∧
        IsLca t t.subtrees[i] t.subtrees[j] t.subtrees[w] := by
  induction t generalizing e k i j with
  | leaf p x m =>
      obtain rfl : j = 0 := by simpa [Tree.subtrees] using hj
      obtain rfl : i = 0 := by omega
      refine ⟨le_rfl, 0, hj, ?_, isLca_root (Tree.mem_subtrees_self _)⟩
      have := SparseTable.isMin_self xs e
      rwa [show xs.getD e default = k + 0 from hseg.head] at this
  | node p l r ihl ihr =>
      have hall : ∀ q, e ≤ q → q < e + (numbers (.node p l r) 0).length → k ≤ xs.getD q 0 :=
        fun q hq hq' => (hseg.le hq (by rwa [length_numbers])).1
      have hbi := firsts_bounds (e := e) (hij.trans_lt hj)
      have hbj := firsts_bounds (e := e) hj
      -- the root is met between the two first occurrences
      have root : ∀ q, (firsts (.node p l r) e).getD i 0 ≤ q → q ≤ (firsts (.node p l r) e).getD j 0 →
          xs.getD q 0 = k → SparseTable.IsMin xs ((firsts (.node p l r) e).getD i 0)
            ((firsts (.node p l r) e).getD j 0) (k + 0) :=
        fun q hq hq' he => ⟨⟨q, hq, hq', he⟩, fun q' h h' => hall q' (by omega) (by omega)⟩
      have hl : Segment xs (e + 1) (numbers l (k + 1)) := by
        rw [numbers, List.append_assoc, List.cons_append] at hseg
        exact hseg.tail.left
      have hmid := hseg
      rw [numbers, List.append_assoc, List.cons_append] at hmid
      have hmid := hmid.tail.right
      rw [length_numbers, List.cons_append] at hmid
      have hr : Segment xs (e + 1 + (numbers l 0).length + 1) (numbers r (k + 1 + l.subtrees.length)) :=
        hmid.tail.left
      have hsize : (Tree.node p l r).subtrees.length = l.subtrees.length + r.subtrees.length + 1 := by
        simp [Tree.subtrees]
      rcases i with _ | i
      · -- the first node is the root
        have h₀ : (firsts (.node p l r) e).getD 0 0 = e := by simp [firsts]
        rw [h₀] at root ⊢
        exact ⟨hbj.1, 0, by omega, root e le_rfl hbj.1 hseg.head, isLca_root (List.getElem_mem hj)⟩
      obtain ⟨j, rfl⟩ : ∃ j', j = j' + 1 := ⟨j - 1, by omega⟩
      by_cases hjl : j < l.subtrees.length
      · -- both lie below the left child
        have hil : i < l.subtrees.length := by omega
        rw [firsts_left hil, firsts_left hjl, getElem_left hil, getElem_left hjl]
        obtain ⟨hle, w, hw, hmin, hlca⟩ := ihl ht.1 hl (by omega : i ≤ j) hil hjl
        refine ⟨hle, w + 1, by omega, by rwa [show k + (w + 1) = k + 1 + w by omega], ?_⟩
        rw [getElem_left hw]
        exact hlca.node ht (Or.inl ⟨rfl, rfl⟩) (List.getElem_mem hil)
      obtain ⟨j, rfl⟩ : ∃ j', j = l.subtrees.length + j' := ⟨j - l.subtrees.length, by omega⟩
      have hjr : j < r.subtrees.length := by omega
      by_cases hil : i < l.subtrees.length
      · -- the tour passes the root between the two
        have h₁ := firsts_bounds (t := l) (e := e + 1) hil
        have h₂ := firsts_bounds (t := r) (e := e + 1 + (numbers l 0).length + 1) hjr
        rw [firsts_left hil, firsts_right] at root ⊢
        rw [getElem_left hil, getElem_right hjr]
        refine ⟨by omega, 0, by omega, root (e + 1 + (numbers l 0).length) (by omega) (by omega) hmid.head, ?_⟩
        exact isLca_children ht (List.getElem_mem hil) (List.getElem_mem hjr)
      · obtain ⟨i, rfl⟩ : ∃ i', i = l.subtrees.length + i' := ⟨i - l.subtrees.length, by omega⟩
        have hir : i < r.subtrees.length := by omega
        rw [firsts_right, firsts_right, getElem_right hir, getElem_right hjr]
        obtain ⟨hle, w, hw, hmin, hlca⟩ := ihr ht.2.1 hr (by omega : i ≤ j) hir hjr
        refine ⟨hle, l.subtrees.length + w + 1, by omega, ?_, ?_⟩
        · rwa [show k + (l.subtrees.length + w + 1) = k + 1 + l.subtrees.length + w by omega]
        · rw [getElem_right hw]
          exact hlca.node ht (Or.inr ⟨rfl, rfl⟩) (List.getElem_mem hir)

/-- The tour over several trees. -/
theorem foldl_eulerTour (F : Forest) (s : Tour) :
    ∃ fs ns, F.foldl (fun s root => eulerTour root s) s =
      ⟨s.preorderToNode ++ F.subtrees, s.firstOccurences ++ fs, s.preorderNumbers ++ ns⟩ ∧
      fs.length = F.subtrees.length := by
  induction F generalizing s with
  | nil => exact ⟨[], [], by simp [Forest.subtrees], rfl⟩
  | cons t F ih =>
      obtain ⟨fs, ns, heq, hlen⟩ := ih (eulerTour t s)
      rw [eulerTour_eq] at heq
      refine ⟨firsts t s.preorderNumbers.length ++ fs, numbers t s.preorderToNode.length ++ ns, ?_, ?_⟩
      · rw [List.foldl_cons, eulerTour_eq, heq]
        simp [Forest.subtrees]
      · simp [Forest.subtrees, length_firsts, hlen]

/-- What the tour of a forest says about one of its trees: the nodes stand in a row from
position `k`, and their numbers and first occurrences are those of a tour that starts at
`e`. -/
structure Toured (d : Tour) (t : Tree) (k e : ℕ) : Prop where
  node : ∀ i (hi : i < t.subtrees.length), d.preorderToNode[k + i]? = some t.subtrees[i]
  first : ∀ i < t.subtrees.length, d.firstOccurences[k + i]? = some ((firsts t e).getD i 0)
  numbers : Segment d.preorderNumbers e (numbers t k)
  length : e + (Cluster.numbers t 0).length ≤ d.preorderNumbers.length

/-- Every tree of the forest is toured. -/
theorem exists_toured {F : Forest} {t : Tree} (ht : t ∈ F) : ∃ k e, Toured (leastCommonAncestor F).tour t k e := by
  obtain ⟨A, B, rfl⟩ := List.append_of_mem ht
  -- the vectors before the tour of the tree, those the tour adds, and the rest
  obtain ⟨fa, na, hA, hfa⟩ := foldl_eulerTour A {}
  obtain ⟨fb, nb, hB, -⟩ := foldl_eulerTour B (eulerTour t ⟨Forest.subtrees A, fa, na⟩)
  have htour : (leastCommonAncestor (A ++ t :: B)).tour =
      ⟨Forest.subtrees A ++ t.subtrees ++ Forest.subtrees B, fa ++ firsts t na.length ++ fb,
        na ++ numbers t (Forest.subtrees A).length ++ nb⟩ := by
    rw [leastCommonAncestor, List.foldl_append, List.foldl_cons, hA]
    simp only [List.nil_append]
    rw [hB, eulerTour_eq]
  refine ⟨(Forest.subtrees A).length, na.length, fun i hi => ?_, fun i hi => ?_, fun q hq => ?_, ?_⟩
  · rw [htour]
    dsimp only
    rw [List.append_assoc, List.getElem?_append_right (by omega), Nat.add_sub_cancel_left,
      List.getElem?_append_left hi, List.getElem?_eq_getElem hi]
  · have hlen : i < (firsts t na.length).length := by rwa [length_firsts]
    rw [htour]
    dsimp only
    rw [← hfa, List.append_assoc, List.getElem?_append_right (by omega), Nat.add_sub_cancel_left,
      List.getElem?_append_left hlen, List.getElem?_eq_getElem hlen, List.getD_eq_getElem _ _ hlen]
  · rw [htour]
    dsimp only
    rw [List.append_assoc, List.getD_append_right _ _ _ _ (by omega), Nat.add_sub_cancel_left,
      List.getD_append _ _ _ _ hq]
  · rw [htour]
    simp only [List.length_append]
    rw [length_numbers t (Forest.subtrees A).length]
    omega

/-- The nodes are numbered in preorder. -/
theorem preorderToNode_leastCommonAncestor (F : Forest) : (leastCommonAncestor F).tour.preorderToNode = F.subtrees := by
  obtain ⟨fs, ns, hF, -⟩ := foldl_eulerTour F {}
  rw [leastCommonAncestor, hF]
  rfl

/-- The number of a node. -/
theorem Toured.idxOf {F : Forest} (hF : F.Distinct) {t : Tree} {k e : ℕ} (h : Toured (leastCommonAncestor F).tour t k e)
    {i : ℕ} (hi : i < t.subtrees.length) : t.subtrees[i] ∈ F.subtrees ∧ F.subtrees.idxOf t.subtrees[i] = k + i := by
  have hget := h.node i hi
  rw [preorderToNode_leastCommonAncestor] at hget
  obtain ⟨hlt, heq⟩ := List.getElem?_eq_some_iff.1 hget
  exact ⟨heq ▸ List.getElem_mem hlt, heq ▸ hF.nodup_subtrees.idxOf_getElem _ hlt⟩

/-- A query for two nodes in the order of the tour. -/
theorem Toured.exists_query {F : Forest} (hF : F.Distinct) {t : Tree} (ht : t ∈ F) {k e : ℕ}
    (h : Toured (leastCommonAncestor F).tour t k e) {i j : ℕ} (hij : i ≤ j) (hi : i < t.subtrees.length)
    (hj : j < t.subtrees.length) :
    (firsts t e).getD i 0 ≤ (firsts t e).getD j 0 ∧
      (firsts t e).getD j 0 < (leastCommonAncestor F).tour.preorderNumbers.length ∧ ∃ w,
        (leastCommonAncestor F).tour.preorderToNode[(leastCommonAncestor F).computeRangeMinimumQuery
          ((firsts t e).getD i 0) ((firsts t e).getD j 0)]? = some w ∧ IsLca t t.subtrees[i] t.subtrees[j] w := by
  obtain ⟨hle, w, hw, hmin, hlca⟩ := exists_isLca (hF.of_mem ht) h.numbers hij hi hj
  have hb := firsts_bounds (t := t) (e := e) hj
  have hlen := h.length
  refine ⟨hle, by omega, t.subtrees[w], ?_, hlca⟩
  have hquery : (leastCommonAncestor F).rangeMinimumQuery =
      SparseTable.build (leastCommonAncestor F).tour.preorderNumbers := rfl
  rw [LeastCommonAncestor.computeRangeMinimumQuery, hquery, (SparseTable.isMin_query hle (by omega)).unique hmin]
  exact h.node w hw

/-- **`getLeastCommonAncestor` finds the least common ancestor** of two nodes of one
tree. -/
theorem getLeastCommonAncestor_spec {F : Forest} (hF : F.Distinct) {t n m : Tree} (ht : t ∈ F)
    (hn : n ∈ t.subtrees) (hm : m ∈ t.subtrees) :
    ∃ w, (leastCommonAncestor F).getLeastCommonAncestor n m = some w ∧ IsLca t n m w := by
  obtain ⟨k, e, h⟩ := exists_toured ht
  obtain ⟨i, hi, rfl⟩ := List.getElem_of_mem hn
  obtain ⟨j, hj, rfl⟩ := List.getElem_of_mem hm
  have hfirst : ∀ i < t.subtrees.length, (leastCommonAncestor F).tour.firstOccurences.getD (k + i) 0 =
      (firsts t e).getD i 0 := fun i hi => by
    rw [List.getD_eq_getElem?_getD, h.first i hi]
    rfl
  unfold LeastCommonAncestor.getLeastCommonAncestor
  obtain ⟨hmem, hidx⟩ := h.idxOf hF hi
  obtain ⟨hmem', hidx'⟩ := h.idxOf hF hj
  rw [preorderToNode_leastCommonAncestor] at *
  rw [if_pos ⟨hmem, hmem'⟩]
  dsimp only
  rw [hidx, hidx', hfirst i hi, hfirst j hj, ← preorderToNode_leastCommonAncestor F]
  split_ifs with hle
  · exact (h.exists_query hF ht (by omega) hi hj).2.2
  · obtain ⟨w, hw, hlca⟩ := (h.exists_query hF ht (by omega : j ≤ i) hj hi).2.2
    exact ⟨w, hw, hlca.mem, hlca.right, hlca.left, fun X hX h h' => hlca.least X hX h' h⟩

end Maf.Cluster
