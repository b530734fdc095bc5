/-
# The two searches for lowest common ancestors

`src/Solver/Approximation/MutableForestView.hpp` has two of them: `lca` walks up the
links of the nodes, `lcaFast` asks the tables of `buildStaticLca`.  On a view that was
not cut they agree for all nodes, also for nodes of different trees, and neither the
tables nor a query reads an entry that is not there (`lcaFast_eq_lca`).

`checkedStaticLca` and `checkedLcaFast` are the two functions with every access checked;
their outer `none` is an access out of range.
-/

import Maf.Approx.CompatibleSet

namespace Maf
namespace Approx

open ParentWalk (Lifting Anc IsLca)

/-- `buildStaticLca` with every access checked. -/
def checkedStaticLca (view : MutableForestView) : Option StaticView :=
  (ParentWalk.checkedBuild view.parentIdx view.nodes.length).map (StaticView.mk view)

/-- `indexOf.at`. -/
def MutableForestView.indexAt (v : MutableForestView) (n : Ptr) : Option ℕ :=
  if n ∈ v.nodes then some (v.indexOf n) else none

/-- `lcaFast` with every access checked. -/
def StaticView.checkedLcaFast (v : StaticView) (aNode bNode : Ptr) : Option (Option Ptr) := do
  let a ← v.view.indexAt aNode
  let b ← v.view.indexAt bNode
  match ← v.lifting.checkedLca a b with
  | none => some none
  | some i => do
      let n ← v.view.nodes[i]?
      some (some n)

namespace MutableForestView

variable {F : Forest} {K : Finset Ptr} {v : MutableForestView} {a b : Ptr}

/-- What the numbers say about lowest common ancestors, the nodes say too. -/
theorem CutAt.isLca_nodes (hF : WellFormed F) (h : CutAt F K v) (ha : a ∈ v.nodes) (hb : b ∈ v.nodes) {r : Option ℕ}
    (hr : IsLca v.parentIdx (v.indexOf a) (v.indexOf b) r) : IsLca v.parent a b (r.bind (v.nodes[·]?)) := by
  cases r with
  | none => exact fun q hqa hqb => hr (v.indexOf q) ((h.anc_idx_iff hF ha).2 hqa) ((h.anc_idx_iff hF hb).2 hqb)
  | some i =>
      obtain ⟨hia, hib, hleast⟩ := hr
      obtain ⟨n, hn, rfl⟩ := h.exists_of_anc_idx hF ha hia
      rw [Option.bind_some, getElem?_nodes_indexOf hF h hn]
      exact ⟨(h.anc_idx_iff hF ha).1 hia, (h.anc_idx_iff hF hb).1 hib, fun q hqa hqb => (h.anc_idx_iff hF hn).1
        (hleast _ ((h.anc_idx_iff hF ha).2 hqa) ((h.anc_idx_iff hF hb).2 hqb))⟩

/-- `lca` finds the lowest common ancestor, after any cuts. -/
theorem CutAt.isLca_lca (hF : WellFormed F) (h : CutAt F K v) (ha : a ∈ v.nodes) (hb : b ∈ v.nodes) :
    IsLca v.parent a b (v.lca a b) := by
  obtain ⟨ht, hg, hle⟩ := h.exists_grounded hF
  exact ParentWalk.lca_spec hg (hle a ha) (hle b hb)

/-- In an uncut view nodes have no common ancestor exactly when they lie in different
trees. -/
theorem lca_eq_none_iff (hF : WellFormed F) (h : CutAt F ∅ v) (ha : a ∈ v.nodes) (hb : b ∈ v.nodes) :
    v.lca a b = none ↔ ∀ t ∈ F, ¬(a ∈ t.ptrs ∧ b ∈ t.ptrs) := by
  have hspec := h.isLca_lca hF ha hb
  have hanc : ∀ {s u : Tree}, s ∈ F.subtrees → u ∈ F.subtrees → (Anc v.parent s.ptr u.ptr ↔ s.labels ⊆ u.labels) :=
    fun hs hu => by
      rw [h.anc_iff hF hs hu]
      simp [cutClusters]
  have mem_ptrs : ∀ {t : Tree} {n : Ptr}, n ∈ t.ptrs ↔ ∃ s ∈ t.subtrees, s.ptr = n := fun {t n} => by
    rw [← Tree.map_ptr_subtrees, List.mem_map]
  constructor
  · rintro hnone t ht ⟨hat, hbt⟩
    rw [hnone] at hspec
    obtain ⟨s, hs, rfl⟩ := mem_ptrs.1 hat
    obtain ⟨u, hu, rfl⟩ := mem_ptrs.1 hbt
    have hroot : t ∈ F.subtrees := Forest.mem_subtrees.2 ⟨t, ht, Tree.mem_subtrees_self t⟩
    exact hspec t.ptr
      ((hanc (Forest.mem_subtrees.2 ⟨t, ht, hs⟩) hroot).2 (Tree.labels_subset_of_mem_subtrees hs))
      ((hanc (Forest.mem_subtrees.2 ⟨t, ht, hu⟩) hroot).2 (Tree.labels_subset_of_mem_subtrees hu))
  · intro hapart
    cases hres : v.lca a b with
    | none => rfl
    | some m =>
        rw [hres] at hspec
        rw [h.nodes] at ha hb
        obtain ⟨s, hs, rfl⟩ := mem_nodes.1 ha
        obtain ⟨u, hu, rfl⟩ := mem_nodes.1 hb
        obtain ⟨w, hw, rfl⟩ := h.exists_of_anc hF hs hspec.1
        obtain ⟨t, ht, hwt⟩ := Forest.mem_subtrees.1 hw
        have below : ∀ {s : Tree}, s ∈ F.subtrees → Anc v.parent s.ptr w.ptr → s.ptr ∈ t.ptrs := fun hs hsw => by
          have hsw' := Forest.mem_subtrees_of_subset hF.distinct hs hw ((hanc hs hw).1 hsw)
          exact mem_ptrs.2 ⟨_, Tree.subtrees_trans hsw' hwt, rfl⟩
        exact absurd ⟨below hs hspec.1, below hu hspec.2.1⟩ (hapart t ht)

/-- **The fast search is the walk.**  On a view of a forest that was not cut, building
the tables and asking them for two nodes reads no entry that is not there, and the
answer is that of the walk along the links: nothing exactly for nodes of different
trees. -/
theorem lcaFast_eq_lca (hF : WellFormed F) (h : CutAt F ∅ v) (ha : a ∈ v.nodes) (hb : b ∈ v.nodes) :
    checkedStaticLca v = some (buildStaticLca v) ∧
      (buildStaticLca v).checkedLcaFast a b = some ((buildStaticLca v).lcaFast a b) ∧
      (buildStaticLca v).lcaFast a b = v.lca a b ∧
      (v.lca a b = none ↔ ∀ t ∈ F, ¬(a ∈ t.ptrs ∧ b ∈ t.ptrs)) := by
  have hpar := h.parentIdx_lt hF
  obtain ⟨ht, hground, -⟩ := ParentWalk.exists_grounded hpar
  have hia : v.indexOf a < v.nodes.length := List.idxOf_lt_length_iff.2 ha
  have hib : v.indexOf b < v.nodes.length := List.idxOf_lt_length_iff.2 hb
  have hspec : IsLca v.parentIdx (v.indexOf a) (v.indexOf b)
      ((buildStaticLca v).lifting.lca (v.indexOf a) (v.indexOf b)) :=
    Lifting.lca_spec hground hpar hia hib
  refine ⟨?_, ?_, ?_, lca_eq_none_iff hF h ha hb⟩
  · rw [checkedStaticLca, ParentWalk.checkedBuild_eq hpar]
    rfl
  · have hchecked : (buildStaticLca v).lifting.checkedLca (v.indexOf a) (v.indexOf b) =
        some ((buildStaticLca v).lifting.lca (v.indexOf a) (v.indexOf b)) :=
      Lifting.checkedLca_eq hground hpar hia hib
    have hat : ∀ n ∈ v.nodes, (buildStaticLca v).view.indexAt n = some (v.indexOf n) := fun n hn => if_pos hn
    rw [StaticView.checkedLcaFast, hat a ha, hat b hb]
    simp only [Option.bind_eq_bind, Option.bind_some, hchecked]
    change _ = some (((buildStaticLca v).lifting.lca (v.indexOf a) (v.indexOf b)).bind fun i => v.nodes[i]?)
    cases hres : (buildStaticLca v).lifting.lca (v.indexOf a) (v.indexOf b) with
    | none => rfl
    | some i =>
        rw [hres] at hspec
        obtain ⟨n, hn, rfl⟩ := h.exists_of_anc_idx hF ha hspec.1
        have hget := getElem?_nodes_indexOf hF h hn
        change (v.nodes[v.indexOf n]?.bind fun n => some (some n)) = some v.nodes[v.indexOf n]?
        rw [hget]
        rfl
  · obtain ⟨ht', hground', -⟩ := h.exists_grounded hF
    exact (h.isLca_nodes hF ha hb hspec).eq hground' (h.isLca_lca hF ha hb)

/-- Two trees in one view: the cherry of `1` and `2`, and the leaf `3`. -/
def twoTrees : Forest := [.node 0 (.leaf 1 1 ∅) (.leaf 2 2 ∅), .leaf 3 3 ∅]

/-- The two trees are well formed. -/
theorem wellFormed_twoTrees : WellFormed twoTrees := ⟨by decide, by decide, by decide⟩

/-- The leaves of the cherry, and two leaves of different trees. -/
theorem lcaFast_eq_lca_twoTrees :
    (buildStaticLca (ofForest twoTrees)).checkedLcaFast 1 2 = some (some 0) ∧
      (buildStaticLca (ofForest twoTrees)).checkedLcaFast 1 3 = some none := by
  have h := lcaFast_eq_lca wellFormed_twoTrees (cutAt_ofForest twoTrees) (a := 1) (b := 2) (by decide) (by decide)
  have h' := lcaFast_eq_lca wellFormed_twoTrees (cutAt_ofForest twoTrees) (a := 1) (b := 3) (by decide) (by decide)
  refine ⟨h.2.1.trans (congrArg some (h.2.2.1.trans (by decide))), h'.2.1.trans (congrArg some (h'.2.2.1.trans ?_))⟩
  exact h'.2.2.2.2 (by decide)

end MutableForestView

end Approx
end Maf
