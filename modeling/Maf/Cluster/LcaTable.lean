/-
# The table of least common ancestors

All members of `LeastCommonAncestor` in `src/Solver/Cluster/LeastCommonAncestor.cpp`,
with every access to a vector checked.  `generatePreorderNumbers` and `eulerTour` enter
the nodes in the same order, so `preorderToInternalPreorder` maps every number to itself
(`ofForest_eq`) and the table is that of `leastCommonAncestor`.

No access is out of range, neither while the table is built nor in a query, and a query
for two nodes of one tree finds the node that walking up the parent pointers finds
(`getLeastCommonAncestor_eq_lca`).
-/

import Maf.Cluster.LeastCommonAncestor
import Maf.CommonSubtree
import Maf.ParentWalk

namespace Maf.Cluster

/-- The members of `LeastCommonAncestor`.  A number that was not assigned is `none`: a
missing key of `nodesToPreorderNumber`, and `-1` in `preorderToInternalPreorder`. -/
structure LcaTable extends Tour where
  nodesToPreorderNumber : Tree → Option ℕ := fun _ => none
  preorderToInternalPreorder : List (Option ℕ) := []
  rangeMinimumQuery : List (List ℕ) := []

/-- `generatePreorderNumbers`: the next number and the numbers of all nodes. -/
def generatePreorderNumbers : Tree → ℕ → (Tree → Option ℕ) → ℕ × (Tree → Option ℕ)
  | .leaf p x m, preorderNumber, numbers =>
      (preorderNumber + 1, Function.update numbers (.leaf p x m) (some preorderNumber))
  | .node p l r, preorderNumber, numbers =>
      let left := generatePreorderNumbers l (preorderNumber + 1)
        (Function.update numbers (.node p l r) (some preorderNumber))
      generatePreorderNumbers r left.1 left.2

namespace LcaTable

/-- The first part of `eulerTour`: a node is entered. -/
def enter (node : Tree) (d : LcaTable) : Option LcaTable := do
  let number ← d.nodesToPreorderNumber node
  let internal := d.preorderToInternalPreorder ++
    List.replicate (number + 1 - d.preorderToInternalPreorder.length) none
  if number < internal.length then
    some { d with
      toTour := d.toTour.enter node
      preorderToInternalPreorder := internal.set number (some d.preorderToNode.length) }
  else none

/-- The tour comes back to a node from a child. -/
def back (preorderNumber : ℕ) (d : LcaTable) : LcaTable := { d with toTour := d.toTour.back preorderNumber }

/-- `eulerTour`. -/
def eulerTour : Tree → LcaTable → Option LcaTable
  | .leaf p x m, d => d.enter (.leaf p x m)
  | .node p l r, d => do
      let preorderNumber := d.preorderToNode.length
      let d ← d.enter (.node p l r)
      let d ← eulerTour l d
      let d ← eulerTour r (d.back preorderNumber)
      some (d.back preorderNumber)

/-- The loop over the roots. -/
def tourRoots : Forest → ℕ → LcaTable → Option LcaTable
  | [], _, d => some d
  | rootNode :: roots, currentPreorder, d => do
      let generated := generatePreorderNumbers rootNode currentPreorder d.nodesToPreorderNumber
      let d ← eulerTour rootNode { d with nodesToPreorderNumber := generated.2 }
      tourRoots roots generated.1 d

/-- **The constructor**; `none` when a vector is accessed out of range. -/
def ofForest (F : Forest) : Option LcaTable := do
  let d ← tourRoots F 0 {}
  let rangeMinimumQuery ← SparseTable.checkedBuild d.preorderNumbers
  some { d with rangeMinimumQuery := rangeMinimumQuery }

/-- **`getLeastCommonAncestor`**; `none` when a vector is accessed out of range, and
`some none` is the exception for a node of another forest. -/
def getLeastCommonAncestor (d : LcaTable) (firstNode secondNode : Tree) : Option (Option Tree) :=
  match d.nodesToPreorderNumber firstNode, d.nodesToPreorderNumber secondNode with
  | some first, some second => do
      let preorderA ← d.preorderToInternalPreorder[first]?.join
      let preorderB ← d.preorderToInternalPreorder[second]?.join
      let firstA ← d.firstOccurences[preorderA]?
      let firstB ← d.firstOccurences[preorderB]?
      let index ←
        if preorderA ≤ preorderB then SparseTable.checkedQuery d.preorderNumbers d.rangeMinimumQuery firstA firstB
        else SparseTable.checkedQuery d.preorderNumbers d.rangeMinimumQuery firstB firstA
      let node ← d.preorderToNode[index]?
      some (some node)
  | _, _ => some none

end LcaTable

/-! What the constructor builds. -/

section

variable {p : Ptr} {l r u : Tree}

/-- Positions in preorder, below the left and the right child. -/
theorem idxOf_left (h : (Tree.node p l r).subtrees.Nodup) (hu : u ∈ l.subtrees) :
    (Tree.node p l r).subtrees.idxOf u = 1 + l.subtrees.idxOf u := by
  rw [Tree.subtrees, List.nodup_cons, List.mem_append, not_or] at h
  have hne : Tree.node p l r ≠ u := fun he => h.1.1 (he ▸ hu)
  rw [Tree.subtrees, List.idxOf_cons_ne _ hne, List.idxOf_append_of_mem hu, Nat.add_comm]

/-- The numbers of the right child come after those of the left one. -/
theorem idxOf_right (h : (Tree.node p l r).subtrees.Nodup) (hu : u ∈ r.subtrees) :
    (Tree.node p l r).subtrees.idxOf u = 1 + l.subtrees.length + r.subtrees.idxOf u := by
  rw [Tree.subtrees, List.nodup_cons, List.mem_append, not_or, List.nodup_append] at h
  obtain ⟨⟨-, hr⟩, -, -, hapart⟩ := h
  have hne : Tree.node p l r ≠ u := fun he => hr (he ▸ hu)
  rw [Tree.subtrees, List.idxOf_cons_ne _ hne, List.idxOf_append_of_notMem fun hul => hapart u hul u hu rfl]
  omega

/-- The number of nodes of a tree. -/
theorem length_subtrees_node : (Tree.node p l r).subtrees.length = 1 + l.subtrees.length + r.subtrees.length := by
  rw [Tree.subtrees, List.length_cons, List.length_append]
  omega

end

/-- **The nodes are numbered in preorder.** -/
theorem generatePreorderNumbers_eq {t : Tree} (ht : t.subtrees.Nodup) (k : ℕ) (f : Tree → Option ℕ) :
    generatePreorderNumbers t k f = (k + t.subtrees.length,
      fun u => if u ∈ t.subtrees then some (k + t.subtrees.idxOf u) else f u) := by
  induction t generalizing k f with
  | leaf p x m =>
      rw [generatePreorderNumbers, Prod.mk.injEq]
      refine ⟨rfl, funext fun u => ?_⟩
      by_cases hu : u = .leaf p x m
      · subst hu
        simp [Tree.subtrees]
      · rw [Function.update_of_ne hu, if_neg (by simpa [Tree.subtrees] using hu)]
  | node p l r ihl ihr =>
      obtain ⟨hl, hr, -⟩ := List.nodup_append.1 (List.nodup_cons.1 ht).2
      rw [generatePreorderNumbers, ihl hl, ihr hr, length_subtrees_node, Prod.mk.injEq]
      dsimp only
      refine ⟨by omega, funext fun u => ?_⟩
      by_cases hur : u ∈ r.subtrees
      · rw [if_pos hur, if_pos (Tree.mem_subtrees_node.2 (Or.inr (Or.inr hur))), idxOf_right ht hur]
        exact congrArg some (by omega)
      · by_cases hul : u ∈ l.subtrees
        · rw [if_neg hur, if_pos hul, if_pos (Tree.mem_subtrees_node.2 (Or.inr (Or.inl hul))), idxOf_left ht hul]
          exact congrArg some (by omega)
        · rw [if_neg hur, if_neg hul]
          by_cases hu : u = .node p l r
          · subst hu
            rw [Function.update_self, if_pos (Tree.mem_subtrees_self _), Tree.subtrees, List.idxOf_cons_self]
            rfl
          · rw [Function.update_of_ne hu, if_neg fun h => (Tree.mem_subtrees_node.1 h).elim hu fun h => h.elim hul hur]

namespace LcaTable

/-- The numbers that `preorderToInternalPreorder` has after `n` nodes. -/
def identity (n : ℕ) : List (Option ℕ) := (List.range n).map some

/-- A node is entered whose number is the next one. -/
theorem enter_eq {node : Tree} {d : LcaTable} (hnum : d.nodesToPreorderNumber node = some d.preorderToNode.length)
    (hid : d.preorderToInternalPreorder = identity d.preorderToNode.length) : d.enter node =
      some ⟨d.toTour.enter node, d.nodesToPreorderNumber, identity (d.preorderToNode.length + 1),
          d.rangeMinimumQuery⟩ := by
  have hlen : (identity d.preorderToNode.length).length = d.preorderToNode.length := by
    rw [identity, List.length_map, List.length_range]
  rw [enter, hnum, hid]
  simp only [Option.bind_eq_bind, Option.bind_some, hlen, Nat.add_sub_cancel_left, List.replicate_one]
  rw [if_pos (by rw [List.length_append, hlen]; exact Nat.lt_succ_self _), List.set_append_right _ _ hlen.le, hlen,
    Nat.sub_self, List.set_cons_zero, identity, identity, List.range_succ, List.map_append, List.map_singleton]

/-- **The tour of a tree whose nodes have the next numbers.** -/
theorem eulerTour_eq {t : Tree} (ht : t.subtrees.Nodup) {d : LcaTable}
    (hnum : ∀ u ∈ t.subtrees, d.nodesToPreorderNumber u = some (d.preorderToNode.length + t.subtrees.idxOf u))
    (hid : d.preorderToInternalPreorder = identity d.preorderToNode.length) :
    d.eulerTour t = some ⟨Cluster.eulerTour t d.toTour, d.nodesToPreorderNumber,
      identity (d.preorderToNode.length + t.subtrees.length), d.rangeMinimumQuery⟩ := by
  induction t generalizing d with
  | leaf p x m => exact enter_eq (by simpa [Tree.subtrees] using hnum _ (Tree.mem_subtrees_self _)) hid
  | node p l r ihl ihr =>
      obtain ⟨hl, hr, -⟩ := List.nodup_append.1 (List.nodup_cons.1 ht).2
      have hroot : d.nodesToPreorderNumber (.node p l r) = some d.preorderToNode.length := by
        rw [hnum _ (Tree.mem_subtrees_self _), Tree.subtrees, List.idxOf_cons_self]
        rfl
      have hlen : (d.toTour.enter (.node p l r)).preorderToNode.length = d.preorderToNode.length + 1 :=
        List.length_append
      have hlen' : (Cluster.eulerTour l (d.toTour.enter (.node p l r))).preorderToNode.length =
          d.preorderToNode.length + 1 + l.subtrees.length := by
        rw [Cluster.eulerTour_eq, List.length_append, hlen]
      rw [eulerTour, enter_eq hroot hid]
      simp only [Option.bind_eq_bind, Option.bind_some]
      rw [ihl hl (fun u hu => by
        dsimp only
        rw [hnum u (Tree.mem_subtrees_node.2 (Or.inr (Or.inl hu))), idxOf_left ht hu, hlen, Nat.add_assoc])
          (by rw [hlen]),
        Option.bind_some, ihr hr (fun u hu => by
          dsimp only [back, Tour.back]
          rw [hnum u (Tree.mem_subtrees_node.2 (Or.inr (Or.inr hu))), idxOf_right ht hu, hlen']
          exact congrArg some (by omega)) (by
            dsimp only [back, Tour.back]
            rw [hlen', hlen]), Option.bind_some]
      dsimp only [back, Tour.back]
      have hsum : d.preorderToNode.length + (1 + l.subtrees.length + r.subtrees.length) =
          d.preorderToNode.length + 1 + l.subtrees.length + r.subtrees.length := by omega
      rw [hlen', length_subtrees_node, hsum]
      rfl

/-- **The loop over the roots**, from a table whose next number is the next preorder
number. -/
theorem tourRoots_eq {F : Forest} (hF : F.subtrees.Nodup) {d : LcaTable}
    (hid : d.preorderToInternalPreorder = identity d.preorderToNode.length) :
    ∃ numbers : Tree → Option ℕ, d.tourRoots F d.preorderToNode.length = some
      ⟨F.foldl (fun s root => Cluster.eulerTour root s) d.toTour, numbers,
        identity (d.preorderToNode.length + F.subtrees.length), d.rangeMinimumQuery⟩ ∧
      ∀ u, numbers u = if u ∈ F.subtrees then some (d.preorderToNode.length + F.subtrees.idxOf u)
        else d.nodesToPreorderNumber u := by
  induction F generalizing d with
  | nil =>
      refine ⟨d.nodesToPreorderNumber, ?_, fun u => (if_neg List.not_mem_nil).symm⟩
      rw [tourRoots, List.foldl_nil, Forest.subtrees, List.flatMap_nil, List.length_nil, Nat.add_zero, ← hid]
  | cons t F ih =>
      rw [Forest.subtrees, List.flatMap_cons, List.nodup_append] at hF
      obtain ⟨ht, hF, hapart⟩ := hF
      have hlen : (Cluster.eulerTour t d.toTour).preorderToNode.length =
          d.preorderToNode.length + t.subtrees.length := by
        rw [Cluster.eulerTour_eq, List.length_append]
      have hsub : Forest.subtrees (t :: F) = t.subtrees ++ Forest.subtrees F := List.flatMap_cons
      have htour := eulerTour_eq ht (d := { d with
        nodesToPreorderNumber := fun u => if u ∈ t.subtrees then some (d.preorderToNode.length + t.subtrees.idxOf u)
          else d.nodesToPreorderNumber u }) (fun u hu => if_pos hu) hid
      rw [tourRoots, generatePreorderNumbers_eq ht]
      simp only [Option.bind_eq_bind]
      rw [htour, Option.bind_some]
      obtain ⟨numbers, hrun, hnum⟩ := ih hF (d := ⟨Cluster.eulerTour t d.toTour,
        fun u => if u ∈ t.subtrees then some (d.preorderToNode.length + t.subtrees.idxOf u)
          else d.nodesToPreorderNumber u,
        identity (d.preorderToNode.length + t.subtrees.length), d.rangeMinimumQuery⟩) (by rw [hlen])
      rw [hlen] at hrun
      refine ⟨numbers, ?_, fun u => ?_⟩
      · rw [hrun, hsub, List.length_append, List.foldl_cons, Nat.add_assoc]
      · rw [hnum, hsub]
        dsimp only
        by_cases hu : u ∈ Forest.subtrees F
        · have hut : u ∉ t.subtrees := fun hut => hapart u hut u hu rfl
          rw [if_pos hu, if_pos (List.mem_append_right _ hu), List.idxOf_append_of_notMem hut, hlen, Nat.add_assoc]
        · by_cases hut : u ∈ t.subtrees
          · rw [if_neg hu, if_pos hut, if_pos (List.mem_append_left _ hut), List.idxOf_append_of_mem hut]
          · rw [if_neg hu, if_neg hut, if_neg fun h => (List.mem_append.1 h).elim hut hu]

/-- **The constructor succeeds**, with the table of `leastCommonAncestor`. -/
theorem ofForest_eq {F : Forest} (hF : F.subtrees.Nodup) : ofForest F = some ⟨(leastCommonAncestor F).tour,
    fun u => if u ∈ F.subtrees then some (F.subtrees.idxOf u) else none, identity F.subtrees.length,
    (leastCommonAncestor F).rangeMinimumQuery⟩ := by
  obtain ⟨numbers, hrun, hnum⟩ := tourRoots_eq hF (d := {}) rfl
  change tourRoots F 0 {} = _ at hrun
  rw [ofForest, hrun]
  simp only [Option.bind_eq_bind, Option.bind_some]
  rw [SparseTable.checkedBuild_eq, Option.bind_some]
  have hnumbers : numbers = fun u => if u ∈ F.subtrees then some (F.subtrees.idxOf u) else none := funext fun u => by
    simpa using hnum u
  rw [hnumbers]
  simp only [List.length_nil, Nat.zero_add]
  rfl

/-- **A query for two nodes of one tree** reads only what is there. -/
theorem getLeastCommonAncestor_eq {F : Forest} (hF : F.Distinct) {t x y : Tree} (ht : t ∈ F) (hx : x ∈ t.subtrees)
    (hy : y ∈ t.subtrees) : ∃ d, ofForest F = some d ∧
      d.getLeastCommonAncestor x y = some ((leastCommonAncestor F).getLeastCommonAncestor x y) := by
  refine ⟨_, ofForest_eq hF.nodup_subtrees, ?_⟩
  obtain ⟨k, e, h⟩ := exists_toured ht
  obtain ⟨i, hi, rfl⟩ := List.getElem_of_mem hx
  obtain ⟨j, hj, rfl⟩ := List.getElem_of_mem hy
  obtain ⟨hmem, hidx⟩ := h.idxOf hF hi
  obtain ⟨hmem', hidx'⟩ := h.idxOf hF hj
  have hinternal : ∀ i (hi : i < t.subtrees.length), (identity F.subtrees.length)[k + i]? = some (some (k + i)) :=
    fun i hi => by
      obtain ⟨hmem, hidx⟩ := h.idxOf hF hi
      have hlt : k + i < F.subtrees.length := hidx ▸ List.idxOf_lt_length_of_mem hmem
      rw [identity, List.getElem?_map, List.getElem?_range hlt]
      rfl
  have hfirst : ∀ i < t.subtrees.length, (leastCommonAncestor F).tour.firstOccurences.getD (k + i) 0 =
      (firsts t e).getD i 0 := fun i hi => by
    rw [List.getD_eq_getElem?_getD, h.first i hi]
    rfl
  have hread : ∀ i j, i ≤ j → i < t.subtrees.length → j < t.subtrees.length →
      ((SparseTable.checkedQuery (leastCommonAncestor F).tour.preorderNumbers (leastCommonAncestor F).rangeMinimumQuery
        ((firsts t e).getD i 0) ((firsts t e).getD j 0)).bind fun index =>
          (leastCommonAncestor F).tour.preorderToNode[index]?.bind fun node => some (some node)) =
        some (leastCommonAncestor F).tour.preorderToNode[(leastCommonAncestor F).computeRangeMinimumQuery
          ((firsts t e).getD i 0) ((firsts t e).getD j 0)]? := by
    intro i j hij hi hj
    obtain ⟨hle, hlt, w, hw, -⟩ := h.exists_query hF ht hij hi hj
    have hquery : (leastCommonAncestor F).rangeMinimumQuery =
        SparseTable.build (leastCommonAncestor F).tour.preorderNumbers := rfl
    rw [LeastCommonAncestor.computeRangeMinimumQuery, hquery] at hw
    rw [LeastCommonAncestor.computeRangeMinimumQuery, hquery, SparseTable.checkedQuery_eq hle hlt, Option.bind_some, hw]
    rfl
  unfold getLeastCommonAncestor LeastCommonAncestor.getLeastCommonAncestor
  rw [preorderToNode_leastCommonAncestor] at *
  rw [if_pos ⟨hmem, hmem'⟩]
  simp only [if_pos hmem, if_pos hmem', hidx, hidx', hinternal i hi, hinternal j hj, h.first i hi, h.first j hj,
    hfirst i hi, hfirst j hj, Option.bind_eq_bind, Option.bind_some, Option.join_some]
  split_ifs with hle
  · exact hread i j (by omega) hi hj
  · exact hread j i (by omega) hj hi

end LcaTable

/-! Walking up the parent pointers. -/

section Walk

open ParentWalk (Anc Grounded)

variable {F : Forest} {s t u x y w : Tree}

/-- The parents of a forest are grounded. -/
theorem exists_grounded_parent (hF : F.Distinct) :
    ∃ ht, Grounded F.parent ht ∧ ∀ n ∈ F.subtrees, ht n ≤ F.subtrees.length := by
  obtain ⟨ht, hg, hle⟩ := @ParentWalk.exists_grounded _ F.parent
    (fun n => F.subtrees.length - n.subtrees.length) fun p q hpq => by
      have hlt := Forest.length_subtrees_lt_parent hF hpq
      have hq := Forest.length_subtrees_le ((Forest.parent_eq_some_iff hF).1 hpq).1
      omega
  refine ⟨ht, hg, fun n hn => (hle n).trans ?_⟩
  have hpos : 0 < n.subtrees.length := List.length_pos_of_mem (Tree.mem_subtrees_self n)
  have hn' := Forest.length_subtrees_le hn
  omega

/-- **The ancestors of a node** are the nodes around its labels. -/
theorem anc_parent_iff (hF : F.Distinct) (hs : s ∈ F.subtrees) :
    Anc F.parent s u ↔ u ∈ F.subtrees ∧ s.labels ⊆ u.labels := by
  constructor
  · intro h
    induction h with
    | refl => exact ⟨hs, Finset.Subset.refl _⟩
    | tail _ hstep ih =>
        obtain ⟨hmem, hchild⟩ := (Forest.parent_eq_some_iff hF).1 hstep
        obtain ⟨p, l, r, rfl, hc⟩ := Tree.hasChild_iff.1 hchild
        refine ⟨hmem, ih.2.trans ?_⟩
        rcases hc with rfl | rfl
        · exact Finset.subset_union_left
        · exact Finset.subset_union_right
  · rintro ⟨hu, hsub⟩
    have hmem := Forest.mem_subtrees_of_subset hF hs hu hsub
    clear hsub
    induction u with
    | leaf p z m => rw [List.mem_singleton.1 hmem]
    | node p l r ihl ihr =>
        obtain ⟨hl, hr⟩ := Forest.mem_subtrees_children hu
        rcases Tree.mem_subtrees_node.1 hmem with rfl | h | h
        · exact .refl
        · exact (ihl hl h).tail ((Forest.parent_eq_some_iff hF).2 ⟨hu, Or.inl rfl⟩)
        · exact (ihr hr h).tail ((Forest.parent_eq_some_iff hF).2 ⟨hu, Or.inr rfl⟩)

/-- The lowest subtree around two nodes is their lowest common ancestor. -/
theorem IsLca.isLca_parent (hF : F.Distinct) (ht : t ∈ F) (hx : x ∈ t.subtrees) (hy : y ∈ t.subtrees)
    (h : IsLca t x y w) : ParentWalk.IsLca F.parent x y (some w) := by
  have mem : ∀ {n : Tree}, n ∈ t.subtrees → n ∈ F.subtrees := fun hn => Forest.mem_subtrees.2 ⟨t, ht, hn⟩
  refine ⟨(anc_parent_iff hF (mem hx)).2 ⟨mem h.mem, h.left⟩, (anc_parent_iff hF (mem hy)).2 ⟨mem h.mem, h.right⟩,
    fun q hxq hyq => ?_⟩
  obtain ⟨hq, hxq⟩ := (anc_parent_iff hF (mem hx)).1 hxq
  obtain ⟨-, hyq⟩ := (anc_parent_iff hF (mem hy)).1 hyq
  obtain ⟨t', ht', hqt⟩ := Forest.mem_subtrees.1 hq
  obtain ⟨z, hz⟩ := x.labels_nonempty
  obtain rfl : t' = t := hF.eq_of_mem ht' ht (Tree.labels_subset_of_mem_subtrees hqt (hxq hz))
    (Tree.labels_subset_of_mem_subtrees hx hz)
  exact (anc_parent_iff hF (mem h.mem)).2 ⟨hq, h.least _ (Tree.mem_clusters_iff.2 ⟨q, hqt, rfl⟩) hxq hyq⟩

end Walk

namespace LcaTable

/-- **The table of least common ancestors.**  For every forest the constructor accesses
no vector out of range; nor does a query for two nodes of one tree, which returns in
either order the node that walking up the parent pointers returns, their lowest common
ancestor. -/
theorem getLeastCommonAncestor_eq_lca {F : Forest} (hF : F.Distinct) {t x y : Tree} (ht : t ∈ F)
    (hx : x ∈ t.subtrees) (hy : y ∈ t.subtrees) :
    ∃ d w, ofForest F = some d ∧ d.getLeastCommonAncestor x y = some (some w) ∧
      d.getLeastCommonAncestor y x = some (some w) ∧ ParentWalk.lca F.parent F.subtrees.length x y = some w ∧
      ParentWalk.IsLca F.parent x y (some w) := by
  obtain ⟨d, hd, hxy⟩ := getLeastCommonAncestor_eq hF ht hx hy
  obtain ⟨d', hd', hyx⟩ := getLeastCommonAncestor_eq hF ht hy hx
  obtain rfl := Option.some.inj (hd.symm.trans hd')
  obtain ⟨w, hw, hlca⟩ := getLeastCommonAncestor_spec hF ht hx hy
  obtain ⟨w', hw', hlca'⟩ := getLeastCommonAncestor_spec hF ht hy hx
  obtain ⟨height, hground, hle⟩ := exists_grounded_parent hF
  have hspec := hlca.isLca_parent hF ht hx hy
  have hswap : some w' = some w := (hlca'.isLca_parent hF ht hy hx).symm.eq hground hspec
  have hwalk := ParentWalk.lca_spec hground (hle x (Forest.mem_subtrees.2 ⟨t, ht, hx⟩))
    (hle y (Forest.mem_subtrees.2 ⟨t, ht, hy⟩))
  exact ⟨d, w, hd, by rw [hxy, hw], by rw [hyx, hw', hswap], hwalk.eq hground hspec, hspec⟩

/-- In the tree `((1,2),3)` the lowest common ancestor of the leaves `1` and `3`. -/
theorem getLeastCommonAncestor_eq_lca_triplet :
    ∃ d w, ofForest [.node 0 (.node 1 (.leaf 2 1 ∅) (.leaf 3 2 ∅)) (.leaf 4 3 ∅)] = some d ∧
      d.getLeastCommonAncestor (.leaf 2 1 ∅) (.leaf 4 3 ∅) = some (some w) ∧
      d.getLeastCommonAncestor (.leaf 4 3 ∅) (.leaf 2 1 ∅) = some (some w) ∧ w.ptr = 0 := by
  obtain ⟨d, w, hd, hxy, hyx, hwalk, -⟩ := getLeastCommonAncestor_eq_lca
    (F := [.node 0 (.node 1 (.leaf 2 1 ∅) (.leaf 3 2 ∅)) (.leaf 4 3 ∅)]) (by decide) (List.mem_singleton_self _)
    (x := .leaf 2 1 ∅) (y := .leaf 4 3 ∅) (by decide) (by decide)
  refine ⟨d, w, hd, hxy, hyx, ?_⟩
  rw [show ParentWalk.lca (Forest.parent [.node 0 (.node 1 (.leaf 2 1 ∅) (.leaf 3 2 ∅)) (.leaf 4 3 ∅)]) _ _ _ =
    some (.node 0 (.node 1 (.leaf 2 1 ∅) (.leaf 3 2 ∅)) (.leaf 4 3 ∅)) by decide] at hwalk
  rw [← Option.some.inj hwalk, Tree.ptr]

end LcaTable

end Maf.Cluster
