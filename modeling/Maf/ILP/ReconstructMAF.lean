/-
# Cutting a cheapest set of edges

`extractCutEdges` and `reconstructMAF` in `src/Solver/ILP/IncrementalMAFSolver.cpp`, with
`buildIndexToNodeMap` in `src/Solver/ILP/TreeUtils.cpp`, on the forest in memory.
`DeleteEdgeAction` throws at a node without parent, and would follow stale links at
a node that an earlier cut has taken out of its tree.

Neither happens for a cheapest set of edges (`reconstructMAF_minimum`).  Each of its
edges is the only one on the path between two leaves (`Irredundant`), so the two are
still in one tree when the edge comes up; and the edges come up in the order of
their numbers, so nothing below the edge has been touched.
-/

import Maf.Action.DeleteEdgeInMemory
import Maf.ILP.IncrementalMAFSolver

namespace Maf

open Graph

namespace Graph

/-- `recBuildNodeToIndexMap`: the nodes from an address down in the order of their
numbers; no way down is longer than `fuel`. -/
def Nodes.preorder (h : Nodes) : ℕ → Option Ptr → List Ptr
  | 0, _ => []
  | _ + 1, none => []
  | fuel + 1, some p => p :: (preorder h fuel (h p).leftChild ++ preorder h fuel (h p).rightChild)

/-- `buildIndexToNodeMap`. -/
def Store.indexToNode (fuel : ℕ) (s : Store) (i : ℕ) : Option Ptr :=
  (s.roots.flatMap fun root => s.nodes.preorder fuel (some root))[i]?

/-- **`reconstructMAF`** on a copy of the forest. -/
def Store.reconstructMAF (fuel : ℕ) (cutEdges : List ℕ) (forest : Store) : Option Store :=
  cutEdges.foldlM (fun s edgeIndex => do
    let child ← forest.indexToNode fuel edgeIndex
    let (_, s) ← DeleteEdgeAction.doAction fuel child s
    some s) forest

end Graph

section Preorder

variable {width fuel : ℕ} {s : Store} {F : Forest}

/-- The preorder in memory is that of the tree. -/
theorem Tree.Stored.preorder {h : Nodes} {parent sibling : Option Ptr} {t : Tree}
    (ht : t.Stored width h parent sibling) (hfuel : t.ptrs.length < fuel) :
    h.preorder fuel (some t.ptr) = t.ptrs := by
  have leaf : ∀ fuel, h.preorder fuel none = [] := fun fuel => by cases fuel <;> rfl
  induction t generalizing parent sibling fuel with
  | leaf p x m =>
      obtain _ | fuel := fuel
      · omega
      · rw [Tree.ptr_leaf, Nodes.preorder, show h p = Tree.record width parent sibling (.leaf p x m) from ht]
        simp only [Tree.record, Tree.leftPtr, Tree.rightPtr, leaf, List.append_nil, Tree.ptrs]
  | node p l r ihl ihr =>
      obtain _ | fuel := fuel
      · omega
      · obtain ⟨hp, hl, hr⟩ := ht
        rw [Tree.ptrs, List.length_cons, List.length_append] at hfuel
        rw [Tree.ptr_node, Nodes.preorder, hp]
        simp only [Tree.record, Tree.leftPtr, Tree.rightPtr]
        rw [ihl hl (by omega), ihr hr (by omega), Tree.ptrs]

/-- **The numbers in memory** are those of the forest. -/
theorem Forest.WellFormed.indexToNode (hF : F.WellFormed width s) (hfuel : F.ptrs.length < fuel) (i : ℕ) :
    s.indexToNode fuel i = ILP.indexToNode F i := by
  unfold Store.indexToNode ILP.indexToNode
  rw [hF.stored.roots, List.flatMap_map, Forest.ptrs]
  congr 1
  refine List.flatMap_congr fun t ht => (hF.stored.trees t ht).preorder (lt_of_le_of_lt ?_ hfuel)
  exact ILP.length_ptrs_le ht

/-- The numbers grow on the way down. -/
theorem Tree.idxOf_ptr_le {t u c : Tree} (ht : t.ptrs.Nodup) (hu : u ∈ t.subtrees) (hc : c ∈ u.subtrees) :
    t.ptrs.idxOf u.ptr ≤ t.ptrs.idxOf c.ptr := by
  induction t with
  | leaf =>
      obtain rfl := List.mem_singleton.1 hu
      obtain rfl := List.mem_singleton.1 hc
      exact le_rfl
  | node p l r ihl ihr =>
      rw [Tree.ptrs, List.nodup_cons, List.nodup_append] at ht
      obtain ⟨hp, hl, hr, hd⟩ := ht
      have below : ∀ {v w : Tree}, v ∈ w.subtrees → w = l ∨ w = r → p ≠ v.ptr := by
        rintro v w hv hw rfl
        refine hp (List.mem_append.2 ?_)
        rcases hw with rfl | rfl
        · exact Or.inl (Tree.ptr_mem_ptrs hv)
        · exact Or.inr (Tree.ptr_mem_ptrs hv)
      rcases Tree.mem_subtrees_node.1 hu with rfl | hu | hu
      · rw [Tree.ptrs, Tree.ptr_node, List.idxOf_cons_self]
        exact Nat.zero_le _
      · have hcl := Tree.subtrees_trans hc hu
        rw [Tree.ptrs, List.idxOf_cons_ne _ (below hu (Or.inl rfl)), List.idxOf_cons_ne _ (below hcl (Or.inl rfl)),
          List.idxOf_append_of_mem (Tree.ptr_mem_ptrs hu), List.idxOf_append_of_mem (Tree.ptr_mem_ptrs hcl)]
        exact Nat.succ_le_succ (ihl hl hu)
      · have hcr := Tree.subtrees_trans hc hu
        have notLeft : ∀ {v : Tree}, v ∈ r.subtrees → v.ptr ∉ l.ptrs := fun hv hmem =>
          hd _ hmem _ (Tree.ptr_mem_ptrs hv) rfl
        rw [Tree.ptrs, List.idxOf_cons_ne _ (below hu (Or.inr rfl)), List.idxOf_cons_ne _ (below hcr (Or.inr rfl)),
          List.idxOf_append_of_notMem (notLeft hu), List.idxOf_append_of_notMem (notLeft hcr)]
        exact Nat.succ_le_succ (Nat.add_le_add_left (ihr hr hu) _)

end Preorder

namespace ILP

/-- The edge above a node has a smaller number than those below. -/
theorem edgeOf_le {T : Forest} (hT : T.ptrs.Nodup) {v c : Tree} (hv : v ∈ T.subtrees) (hc : c ∈ v.subtrees) :
    edgeOf T v ≤ edgeOf T c := by
  unfold edgeOf
  induction T with
  | nil => cases hv
  | cons t T ih =>
      rw [Forest.ptrs, List.flatMap_cons, List.nodup_append] at hT
      obtain ⟨ht, hT, hd⟩ := hT
      rw [Forest.ptrs, List.flatMap_cons]
      rcases List.mem_append.1 hv with hv | hv
      · rw [List.idxOf_append_of_mem (Tree.ptr_mem_ptrs hv),
          List.idxOf_append_of_mem (Tree.ptr_mem_ptrs (Tree.subtrees_trans hc hv))]
        exact Tree.idxOf_ptr_le ht hv hc
      · have hmem : ∀ {w : Tree}, w ∈ v.subtrees → w.ptr ∉ t.ptrs := by
          intro w hw hmem
          obtain ⟨u, hu, hvu⟩ := List.mem_flatMap.1 hv
          exact hd _ hmem _ (List.mem_flatMap.2 ⟨u, hu, Tree.ptr_mem_ptrs (Tree.subtrees_trans hw hvu)⟩) rfl
        rw [List.idxOf_append_of_notMem (hmem v.mem_subtrees_self), List.idxOf_append_of_notMem (hmem hc)]
        exact Nat.add_le_add_left (ih hT hv) _

/-- Every number is that of a node. -/
theorem exists_edgeOf {T : Forest} (hT : T.ptrs.Nodup) {i : ℕ} (hi : i < T.ptrs.length) :
    ∃ c ∈ T.subtrees, edgeOf T c = i := by
  have hget : T.ptrs[i] ∈ T.subtrees.map Tree.ptr := by
    rw [Forest.map_ptr_subtrees]
    exact List.getElem_mem hi
  obtain ⟨c, hc, hptr⟩ := List.mem_map.1 hget
  exact ⟨c, hc, by rw [edgeOf, hptr, hT.idxOf_getElem]⟩

/-- The clause consists of the edges on some paths between leaves. -/
def IsUnionOfPaths (T : Forest) (clause : Finset ℕ) : Prop :=
  ∃ paths : Finset (Label × Label), (∀ e ∈ paths, e.1 ∈ T.labels ∧ e.2 ∈ T.labels) ∧
    clause = paths.biUnion fun e => pathEdges T e.1 e.2

/-- The assignment has as few true variables as possible. -/
def IsCheapest (φ : Formula) (answer : Finset ℕ) : Prop :=
  Satisfies φ answer ∧ ∀ other, Satisfies φ other → answer.card ≤ other.card

/-- Every edge is the only one of `E` on some path between two leaves of a tree. -/
def Irredundant (T : Forest) (E : List ℕ) : Prop :=
  ∀ i ∈ E, ∃ x y, T.Joined x y ∧ i ∈ pathEdges T x y ∧ ∀ j ∈ E, j ∈ pathEdges T x y → j = i

section Reconstruct

variable {width fuel : ℕ} {T G : Forest} {s : Store}

/-- **A cheapest assignment has no edge to spare.** -/
theorem IsCheapest.irredundant {t : Tree} {φ : Formula} {E : Finset ℕ} (hE : IsCheapest φ E)
    (hφ : ∀ c ∈ φ.hard, IsUnionOfPaths [t] c) : Irredundant [t] (extractCutEdges φ.numVars E) := by
  intro i hi
  have hiE : i ∈ E := of_decide_eq_true (List.mem_filter.1 hi).2
  -- without the edge some clause is not hit any more
  obtain ⟨c, hc, hno⟩ : ∃ c ∈ φ.hard, ∀ e ∈ E.erase i, e ∉ c := by
    by_contra hall
    push Not at hall
    have hless : Satisfies φ (E.erase i) :=
      ⟨(Finset.erase_subset _ _).trans hE.1.subset, fun h => hE.1.root (Finset.mem_of_mem_erase h), hall⟩
    have := hE.2 _ hless
    have := Finset.card_erase_lt_of_mem hiE
    omega
  obtain ⟨e, heE, hec⟩ := hE.1.hard c hc
  obtain rfl : e = i := by
    by_contra hne
    exact hno e (Finset.mem_erase.2 ⟨hne, heE⟩) hec
  obtain ⟨paths, hpaths, rfl⟩ := hφ c hc
  obtain ⟨⟨x, y⟩, hxy, hxye⟩ := Finset.mem_biUnion.1 hec
  obtain ⟨hx, hy⟩ := hpaths _ hxy
  simp only [Forest.labels_cons, Forest.labels_nil, Finset.union_empty] at hx hy
  refine ⟨x, y, ⟨t, List.mem_singleton_self t, hx, hy⟩, hxye, fun j hj hjxy => ?_⟩
  by_contra hne
  have hjE : j ∈ E := of_decide_eq_true (List.mem_filter.1 hj).2
  exact hno j (Finset.mem_erase.2 ⟨hne, hjE⟩) (Finset.mem_biUnion.2 ⟨_, hxy, hjxy⟩)

/-- What remains to be cut is untouched. -/
structure Untouched (T G : Forest) (done rest : List ℕ) : Prop where
  reconstructed : Reconstructed T done G
  irredundant : Irredundant T (done ++ rest)
  sorted : (done ++ rest).Pairwise (· < ·)
  mem : ∀ i ∈ rest, ∃ c ∈ T.subtrees, edgeOf T c = i ∧ c ∈ G.subtrees

/-- The next edge has a parent. -/
theorem Untouched.notMem {done rest : List ℕ} {c : Tree} (hT : T.Valid)
    (h : Untouched T G done (edgeOf T c :: rest)) (hc : c ∈ T.subtrees) : c ∉ G := by
  intro hroot
  obtain ⟨x, y, hxy, hpath, honly⟩ := h.irredundant (edgeOf T c) (by simp)
  have hsep : Separates c.labels x y := by
    obtain ⟨u, hu, hsep, he⟩ := mem_pathEdges.1 hpath
    rwa [(edgeOf_inj hT.nodup hu hc).1 he] at hsep
  have hnot : edgeOf T c ∉ done := fun hmem =>
    absurd ((List.pairwise_append.1 h.sorted).2.2 _ hmem _ (List.mem_cons_self ..)) (lt_irrefl _)
  obtain ⟨u, hu, hxu, hyu⟩ : G.Joined x y := by
    refine (h.reconstructed.joined x y).2 ⟨hxy, ?_⟩
    rintro ⟨v, hv, hvd, hvsep⟩
    exact hnot (honly _ (List.mem_append_left _ hvd) (mem_pathEdges.2 ⟨v, hv, hvsep, rfl⟩) ▸ hvd)
  rcases Maf.separates_iff.1 hsep with ⟨hx, hy⟩ | ⟨hy, hx⟩
  · exact hy (h.reconstructed.valid.distinct.eq_of_mem hroot hu hx hxu ▸ hyu)
  · exact hx (h.reconstructed.valid.distinct.eq_of_mem hroot hu hy hyu ▸ hxu)

/-- **One more cut** touches nothing that remains. -/
theorem Untouched.deleteEdge {done rest : List ℕ} {c : Tree} {G' : Forest} (hT : T.Valid)
    (h : Untouched T G done (edgeOf T c :: rest)) (hc : c ∈ T.subtrees) (hcG : c ∈ G.subtrees)
    (hd : G.deleteEdge c = some G') : Untouched T G' (done ++ [edgeOf T c]) rest := by
  have happ : done ++ [edgeOf T c] ++ rest = done ++ edgeOf T c :: rest := List.append_cons .. |>.symm
  have hi : indexToNode T (edgeOf T c) = some c.ptr :=
    (nodeToIndex_eq_some_iff hT.nodup).1 (nodeToIndex_ptr hc)
  refine ⟨h.reconstructed.deleteEdge hT hi (Forest.nodeAt_ptr h.reconstructed.valid.nodup hcG) hd, happ ▸ h.irredundant,
    happ ▸ h.sorted, fun j hj => ?_⟩
  obtain ⟨v, hv, rfl, hvG⟩ := h.mem j (List.mem_cons_of_mem _ hj)
  have hlt : edgeOf T c < edgeOf T v :=
    (List.pairwise_cons.1 (List.pairwise_append.1 h.sorted).2.1).1 _ hj
  refine ⟨v, hv, rfl, ?_⟩
  have hcG' := Forest.mem_subtrees_deleteEdge h.reconstructed.valid hd hcG (Or.inl rfl)
  rcases (Forest.hierarchy hT.distinct).nested _ (Forest.labels_mem_clusters hv) _
    (Forest.labels_mem_clusters hc) with hsub | hsub | hdis
  · obtain ⟨u, hu, hvu⟩ := Forest.mem_subtrees.1 hcG'
    exact Forest.mem_subtrees.2 ⟨u, hu, Tree.subtrees_trans
      (Forest.mem_subtrees_of_subset hT.distinct hv hc hsub) hvu⟩
  · have := edgeOf_le hT.nodup hv (Forest.mem_subtrees_of_subset hT.distinct hc hv hsub)
    omega
  · exact Forest.mem_subtrees_deleteEdge h.reconstructed.valid hd hvG (Or.inr hdis)

/-- **The cuts that remain succeed**, in memory as in the forest. -/
theorem exists_foldlM (hT : T.WellFormed width s) (hfuel : T.ptrs.length < fuel) {done rest : List ℕ} {s₁ : Store}
    (hG : G.WellFormed width s₁) (hlen : G.ptrs.length ≤ fuel) (h : Untouched T G done rest) :
    ∃ s₂ F, rest.foldlM (fun s₁ edgeIndex => do
      let child ← s.indexToNode fuel edgeIndex
      let (_, s₁) ← DeleteEdgeAction.doAction fuel child s₁
      some s₁) s₁ = some s₂ ∧ F.WellFormed width s₂ ∧ Reconstructed T (done ++ rest) F ∧
      rest.foldlM (fun F edgeIndex => (indexToNode T edgeIndex).bind fun p =>
        (F.nodeAt p).bind fun child => F.deleteEdge child) G = some F := by
  induction rest generalizing done G s₁ with
  | nil => exact ⟨s₁, G, rfl, hG, (List.append_nil done).symm ▸ h.reconstructed, rfl⟩
  | cons i rest ih =>
      obtain ⟨c, hc, rfl, hcG⟩ := h.mem i (List.mem_cons_self ..)
      obtain ⟨act, s₂, G', hcut⟩ := Forest.exists_cut hG hlen hcG (h.notMem hT.valid hc)
      have hlen' := Forest.length_ptrs_deleteEdge hG.valid hcut.cut
      obtain ⟨s₃, F, hrun, hF, hrec, hrun'⟩ := ih hcut.wellFormed (by omega)
        (h.deleteEdge hT.valid hc hcG hcut.cut)
      have hi := (nodeToIndex_eq_some_iff hT.valid.nodup).1 (nodeToIndex_ptr hc)
      refine ⟨s₃, F, ?_, hF, by rwa [List.append_assoc, List.singleton_append] at hrec, ?_⟩
      · rw [List.foldlM_cons, hT.indexToNode hfuel, hi]
        simp only [Option.bind_eq_bind, Option.bind_some, hcut.done]
        exact hrun
      · rw [List.foldlM_cons, hi]
        simp only [Option.bind_eq_bind, Option.bind_some, Forest.nodeAt_ptr hG.valid.nodup hcG, hcut.cut]
        exact hrun'

/-- The cut edges are listed in increasing order. -/
theorem sorted_extractCutEdges (numVars : ℕ) (E : Finset ℕ) : (extractCutEdges numVars E).Pairwise (· < ·) :=
  List.pairwise_lt_range.filter _

/-- Every variable that is true is a cut edge. -/
theorem length_extractCutEdges {numVars : ℕ} {E : Finset ℕ} (hE : E ⊆ Finset.range numVars) :
    (extractCutEdges numVars E).length = E.card := by
  have hset : (extractCutEdges numVars E).toFinset = E := by
    ext i
    simp only [extractCutEdges, List.mem_toFinset, List.mem_filter, List.mem_range, decide_eq_true_eq]
    exact ⟨And.right, fun h => ⟨Finset.mem_range.1 (hE h), h⟩⟩
  rw [← List.toFinset_card_of_nodup ((sorted_extractCutEdges numVars E).imp fun h => h.ne), hset]

/-- A cheapest set of edges can be cut, in memory as in the forest. -/
theorem exists_reconstructMAF {t : Tree} (ht : Forest.WellFormed width s [t]) (hfuel : t.ptrs.length < fuel)
    {φ : Formula} (hvars : φ.numVars = getNumVars [t])
    (hφ : ∀ c ∈ φ.hard, IsUnionOfPaths [t] c) {E : Finset ℕ} (hE : IsCheapest φ E) :
    ∃ (s' : Store) (F : Forest), s.reconstructMAF fuel (extractCutEdges φ.numVars E) = some s' ∧
      F.WellFormed width s' ∧ reconstructMAF (extractCutEdges φ.numVars E) [t] = some F ∧
      Reconstructed [t] (extractCutEdges φ.numVars E) F := by
  have hptrs : Forest.ptrs [t] = t.ptrs := by simp [Forest.ptrs]
  have hstart : Untouched [t] [t] [] (extractCutEdges φ.numVars E) := by
    refine ⟨reconstructed_nil ht.valid, hE.irredundant hφ, sorted_extractCutEdges _ _, fun i hi => ?_⟩
    have hlt := Finset.mem_range.1 (hE.1.subset (of_decide_eq_true (List.mem_filter.1 hi).2))
    rw [hvars] at hlt
    obtain ⟨c, hc, he⟩ := exists_edgeOf ht.valid.nodup hlt
    exact ⟨c, hc, he, hc⟩
  obtain ⟨s', F, hrun, hF, hrec, hrun'⟩ := exists_foldlM ht (hptrs ▸ hfuel) ht (hptrs ▸ hfuel.le) hstart
  exact ⟨s', F, hrun, hF, hrun', hrec⟩

/-- **Cutting a cheapest set of edges never fails**: no cut meets a node without
parent or one that is no longer in the forest (`ILP.reconstructMAF` would give
`none`), there is one tree more than there are edges, and two leaves share a tree
exactly when no edge on their path is cut. -/
theorem reconstructMAF_minimum {t : Tree} (ht : Forest.WellFormed width s [t]) (hfuel : t.ptrs.length < fuel)
    {φ : Formula} (hvars : φ.numVars = getNumVars [t])
    (hφ : ∀ c ∈ φ.hard, IsUnionOfPaths [t] c) {E : Finset ℕ} (hE : IsCheapest φ E) :
    ∃ (s' : Store) (F : Forest), s.reconstructMAF fuel (extractCutEdges φ.numVars E) = some s' ∧
      F.WellFormed width s' ∧ reconstructMAF (extractCutEdges φ.numVars E) [t] = some F ∧
      F.length = E.card + 1 ∧ F.labels = t.labels ∧
      ∀ x ∈ t.labels, ∀ y ∈ t.labels, F.Joined x y ↔ Disjoint E (pathEdges [t] x y) := by
  have hmem : ∀ {i}, i ∈ extractCutEdges φ.numVars E ↔ i ∈ E := by
    intro i
    simp only [extractCutEdges, List.mem_filter, List.mem_range, decide_eq_true_eq]
    exact ⟨And.right, fun h => ⟨Finset.mem_range.1 (hE.1.subset h), h⟩⟩
  obtain ⟨s', F, hrun, hF, hrun', hrec⟩ := exists_reconstructMAF ht hfuel hvars hφ hE
  refine ⟨s', F, hrun, hF, hrun', ?_, ?_, fun x hx y hy => ?_⟩
  · rw [hrec.length, length_extractCutEdges hE.1.subset, List.length_singleton, Nat.add_comm]
  · rw [hrec.labels, Forest.labels_cons, Forest.labels_nil, Finset.union_empty]
  · rw [hrec.joined, Finset.disjoint_left]
    constructor
    · rintro ⟨-, hno⟩ i hi hpath
      obtain ⟨u, hu, hsep, rfl⟩ := mem_pathEdges.1 hpath
      exact hno ⟨u, hu, hmem.2 hi, hsep⟩
    · intro h
      refine ⟨⟨t, List.mem_singleton_self t, hx, hy⟩, ?_⟩
      rintro ⟨u, hu, hE, hsep⟩
      exact h (hmem.1 hE) (mem_pathEdges.2 ⟨u, hu, hsep, rfl⟩)

/-- A cherry and a leaf; the path between `1` and `3` shall be cut. -/
def cherryAndLeaf : Tree := .node 0 (.node 1 (.leaf 2 1 ∅) (.leaf 3 2 ∅)) (.leaf 4 3 ∅)

/-- One edge is the cheapest assignment. -/
theorem isCheapest_cherryAndLeaf : IsCheapest ⟨5, 0, [pathEdges [cherryAndLeaf] 1 3]⟩ {1} := by
  refine ⟨⟨by decide, by decide, by decide⟩, fun other hother => ?_⟩
  obtain ⟨e, he, -⟩ := hother.hard _ (List.mem_singleton_self _)
  exact Finset.card_pos.2 ⟨e, he⟩

/-- **Cutting the edge above the cherry.** -/
theorem reconstructMAF_cherryAndLeaf :
    ∃ (s' : Store) (F : Forest),
      (Forest.toStore 1 [cherryAndLeaf]).reconstructMAF 6 (extractCutEdges 5 {1}) = some s' ∧
      F.WellFormed 1 s' ∧ reconstructMAF (extractCutEdges 5 {1}) [cherryAndLeaf] = some F ∧ F.length = 2 ∧
      F.labels = cherryAndLeaf.labels ∧
      ∀ x ∈ cherryAndLeaf.labels, ∀ y ∈ cherryAndLeaf.labels,
        F.Joined x y ↔ Disjoint {1} (pathEdges [cherryAndLeaf] x y) := by
  refine reconstructMAF_minimum (Forest.toStore_wellFormed (by decide) (by decide)) (by decide) rfl (fun c hc => ?_)
    isCheapest_cherryAndLeaf
  obtain rfl := List.mem_singleton.1 hc
  exact ⟨{(1, 3)}, by decide, by rw [Finset.singleton_biUnion]⟩

end Reconstruct

end ILP

end Maf
