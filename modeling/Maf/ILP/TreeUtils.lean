/-
# Paths and triples

`src/Solver/ILP/TreeUtils.cpp` and `ForestData` of `src/Solver/ILP/ILPModel.hpp`.
An edge is named by the preorder number of its lower node.  `getPath` collects the
edges from two leaves up to their least common ancestor, `areTwoPathsDisjoint`
compares two paths, and `checkIncompatibleTriple` compares the least common
ancestors of three leaves in two forests.

The path between two leaves of one tree consists of the edges that separate the
two (`getPath_spec`), so the checks decide `PathsDisjoint`
(`areTwoPathsDisjoint_spec`) and `Conflict` (`checkIncompatibleTriple_spec`).
A sorted vector without repetitions is a finite set here, and the cache of paths,
which holds what `getPath` has returned before, is left out.
-/

import Maf.Cluster.LeastCommonAncestor
import Maf.Forest
import Maf.PathPairs

namespace Maf.ILP

/-- `ForestData`: the index and the ancestor table describe the forest as it was
`built`, while parents are those of the forest as it is now. -/
structure ForestData where
  forestPtr : Forest
  built : Forest

/-- `buildForestData`. -/
def buildForestData (F : Forest) : ForestData := ⟨F, F⟩

/-- `buildNodeToIndexMap`: the preorder number of a node. -/
def nodeToIndex (F : Forest) (p : Ptr) : Option ℕ := if p ∈ F.ptrs then some (F.ptrs.idxOf p) else none

/-- `buildIndexToNodeMap`. -/
def indexToNode (F : Forest) (i : ℕ) : Option Ptr := F.ptrs[i]?

/-- `getNumVars`. -/
def getNumVars (F : Forest) : ℕ := F.ptrs.length

/-- `getRootIndex`; `none` is the exception for a forest without roots. -/
def getRootIndex (F : Forest) : Option ℕ := F.head?.bind fun root => nodeToIndex F root.ptr

/-- `buildLabelToTerminal`. -/
def ForestData.labelToTerminal (d : ForestData) (x : Label) : Option Tree :=
  d.built.subtrees.find? fun s => decide (s.terminalToLabel = some x)

/-- The least common ancestor of two leaves. -/
def ForestData.lcaNode (d : ForestData) (leaf1 leaf2 : Label) : Option Tree :=
  (d.labelToTerminal leaf1).bind fun node1 => (d.labelToTerminal leaf2).bind fun node2 =>
    (Cluster.leastCommonAncestor d.built).getLeastCommonAncestor node1 node2

/-- `getLCA`. -/
def getLCA (leaf1 leaf2 : Label) (d : ForestData) : Option ℕ :=
  (d.lcaNode leaf1 leaf2).bind fun w => nodeToIndex d.built w.ptr

/-- `current->parent`. -/
def ForestData.parent (d : ForestData) (current : Ptr) : Option Ptr :=
  ((d.forestPtr.nodeAt current).bind d.forestPtr.parent).map Tree.ptr

/-- The loop of `getPath` from a leaf up to the least common ancestor; `none` is the
exception when the way up ends before. -/
def ForestData.edgesUpTo (d : ForestData) (lca : Ptr) : ℕ → Ptr → Option (Finset ℕ)
  | 0, current => if current = lca then some ∅ else none
  | fuel + 1, current =>
      if current = lca then some ∅
      else
        (nodeToIndex d.built current).bind fun edge => (d.parent current).bind fun above =>
          (d.edgesUpTo lca fuel above).map (insert edge)

/-- **`getPath`**; no way up is longer than there are nodes. -/
def getPath (leaf1 leaf2 : Label) (d : ForestData) : Option (Finset ℕ) :=
  let a := min leaf1 leaf2
  let b := max leaf1 leaf2
  (d.lcaNode a b).bind fun lca => (d.labelToTerminal a).bind fun node1 =>
    (d.labelToTerminal b).bind fun node2 =>
      let fuel := d.forestPtr.ptrs.length
      (d.edgesUpTo lca.ptr fuel node1.ptr).bind fun edges1 =>
        (d.edgesUpTo lca.ptr fuel node2.ptr).bind fun edges2 =>
          if edges1 ∪ edges2 = ∅ then none else some (edges1 ∪ edges2)

/-- **`areTwoPathsDisjoint`**. -/
def areTwoPathsDisjoint (lpair1 rpair1 lpair2 rpair2 : Label) (d : ForestData) : Option Bool :=
  (getPath lpair1 rpair1 d).bind fun path1 => (getPath lpair2 rpair2 d).bind fun path2 =>
    if path1 = ∅ ∨ path2 = ∅ then none else some (decide (Disjoint path1 path2))

/-- **`checkIncompatibleTriple`**. -/
def checkIncompatibleTriple (leaf1 leaf2 leaf3 : Label) (d1 d2 : ForestData) : Option Bool :=
  if leaf1 = leaf2 ∨ leaf1 = leaf3 ∨ leaf2 = leaf3 then none
  else
    (getLCA leaf1 leaf2 d1).bind fun lcaij1 => (getLCA leaf2 leaf3 d1).bind fun lcajk1 =>
    (getLCA leaf1 leaf3 d1).bind fun lcaik1 => (getLCA leaf1 leaf2 d2).bind fun lcaij2 =>
    (getLCA leaf2 leaf3 d2).bind fun lcajk2 => (getLCA leaf1 leaf3 d2).bind fun lcaik2 =>
      some <|
        if lcaij1 = lcajk1 then decide (lcaij2 ≠ lcajk2)
        else if lcaij1 = lcaik1 then decide (lcaij2 ≠ lcaik2)
        else decide (lcaik2 ≠ lcajk2)

section Index

variable {F : Forest}

/-- Nodes and numbers name each other. -/
theorem nodeToIndex_eq_some_iff (hF : F.ptrs.Nodup) {p : Ptr} {i : ℕ} :
    nodeToIndex F p = some i ↔ indexToNode F i = some p := by
  unfold nodeToIndex indexToNode
  constructor
  · intro h
    split_ifs at h with hp
    obtain rfl := Option.some.inj h
    rw [List.getElem?_eq_getElem (List.idxOf_lt_length_of_mem hp), List.getElem_idxOf]
  · intro h
    obtain ⟨hi, rfl⟩ := List.getElem?_eq_some_iff.1 h
    rw [if_pos (List.getElem_mem hi), hF.idxOf_getElem]

/-- The edge above the node of a subtree. -/
def edgeOf (F : Forest) (s : Tree) : ℕ := F.ptrs.idxOf s.ptr

/-- A subtree has its root among the nodes of the forest. -/
theorem ptr_mem {s : Tree} (hs : s ∈ F.subtrees) : s.ptr ∈ F.ptrs :=
  Forest.map_ptr_subtrees F ▸ List.mem_map_of_mem hs

/-- Every node has the number of its edge. -/
theorem nodeToIndex_ptr {s : Tree} (hs : s ∈ F.subtrees) : nodeToIndex F s.ptr = some (edgeOf F s) :=
  if_pos (ptr_mem hs)

/-- Two nodes have different numbers. -/
theorem edgeOf_inj (hF : F.ptrs.Nodup) {s u : Tree} (hs : s ∈ F.subtrees) (hu : u ∈ F.subtrees) :
    edgeOf F s = edgeOf F u ↔ s = u := by
  refine ⟨fun h => Forest.eq_of_ptr_eq hF hs hu ?_, fun h => h ▸ rfl⟩
  exact (List.idxOf_inj (ptr_mem hs)).1 h

end Index

section Ancestors

variable {F G : Forest} {t u : Tree} {x y z : Label}

/-- Every label has its terminal. -/
theorem labelToTerminal_spec (hF : F.Distinct) (ht : t ∈ F) (hx : x ∈ t.labels) :
    ∃ p m, (buildForestData F).labelToTerminal x = some (.leaf p x m) ∧ Tree.leaf p x m ∈ t.subtrees := by
  obtain ⟨p, m, hmem⟩ := Tree.exists_leaf hx
  have hmemF : Tree.leaf p x m ∈ F.subtrees := Forest.mem_subtrees.2 ⟨t, ht, hmem⟩
  refine ⟨p, m, ?_, hmem⟩
  cases h : (buildForestData F).labelToTerminal x with
  | none => exact absurd (List.find?_eq_none.1 h _ hmemF) (by simp [Tree.terminalToLabel])
  | some s =>
      have hs : s ∈ F.subtrees := List.mem_of_find?_eq_some h
      have hsx : s.terminalToLabel = some x := by simpa using List.find?_some h
      obtain ⟨p', m', rfl⟩ := Tree.terminalToLabel_eq_some.1 hsx
      rw [Forest.eq_of_labels_eq hF hs hmemF rfl]

/-- The node `w` is the lowest one above the leaves `x` and `y`. -/
structure LcaOf (F : Forest) (x y : Label) (w : Tree) : Prop where
  mem : w ∈ F.subtrees
  left : x ∈ w.labels
  right : y ∈ w.labels
  least : ∀ X ∈ F.clusters, x ∈ X → y ∈ X → w.labels ⊆ X

/-- `lcaNode` finds the lowest common ancestor of two labels of a tree. -/
theorem lcaNode_spec (hF : F.Distinct) (ht : t ∈ F) (hx : x ∈ t.labels) (hy : y ∈ t.labels) :
    ∃ w, (buildForestData F).lcaNode x y = some w ∧ LcaOf F x y w := by
  obtain ⟨p, m, hpx, hmem⟩ := labelToTerminal_spec hF ht hx
  obtain ⟨p', m', hpy, hmem'⟩ := labelToTerminal_spec hF ht hy
  obtain ⟨w, hw, hlca⟩ := Cluster.getLeastCommonAncestor_spec hF ht hmem hmem'
  refine ⟨w, ?_, Forest.mem_subtrees.2 ⟨t, ht, hlca.mem⟩, hlca.left (by simp), hlca.right (by simp),
    fun X hX hxX hyX => ?_⟩
  · rw [ForestData.lcaNode, hpx, hpy]
    exact hw
  · obtain ⟨t', ht', hX⟩ := Forest.mem_clusters.1 hX
    obtain rfl := hF.eq_of_mem ht ht' hx (Tree.subset_labels hX hxX)
    exact hlca.least X hX (by simpa using hxX) (by simpa using hyX)

/-- `getLCA` finds the number of the lowest common ancestor. -/
theorem getLCA_spec (hF : F.Distinct) (ht : t ∈ F) (hx : x ∈ t.labels) (hy : y ∈ t.labels) :
    ∃ w, getLCA x y (buildForestData F) = some (edgeOf F w) ∧ LcaOf F x y w := by
  obtain ⟨w, hw, hlca⟩ := lcaNode_spec hF ht hx hy
  refine ⟨w, ?_, hlca⟩
  rw [getLCA, hw]
  exact nodeToIndex_ptr hlca.mem

/-- The lowest common ancestor does not depend on the order. -/
theorem LcaOf.symm {w : Tree} (h : LcaOf F x y w) : LcaOf F y x w :=
  ⟨h.mem, h.right, h.left, fun X hX hy hx => h.least X hX hx hy⟩

/-- **Two of three least common ancestors are equal** when the label they share is
farther away than the others from each other. -/
theorem LcaOf.eq_iff (hF : F.Distinct) {v w : Tree} (hv : LcaOf F x y v) (hw : LcaOf F y z w)
    (hxy : x ≠ y) : v = w ↔ Triple F.clusters x z y := by
  have hH := Forest.hierarchy hF
  have hvC := Forest.labels_mem_clusters hv.mem
  have hwC := Forest.labels_mem_clusters hw.mem
  constructor
  · rintro rfl
    have hcard : 2 ≤ v.labels.card := by
      refine (Finset.card_pair hxy).ge.trans (Finset.card_le_card fun w hw => ?_)
      rcases Finset.mem_insert.1 hw with rfl | hw
      · exact hv.left
      · exact Finset.mem_singleton.1 hw ▸ hv.right
    obtain ⟨Y, hY, Z, hZ, hd, hYZ⟩ := hH.split _ hvC hcard
    -- no child has both labels of an ancestor below it
    have side : ∀ {X}, X ∈ F.clusters → X = Y ∨ X = Z → (x ∈ X → y ∉ X) ∧ (y ∈ X → z ∉ X) := by
      intro X hX hor
      have hproper : ¬v.labels ⊆ X := by
        intro hsub
        obtain ⟨o, ho⟩ := hH.nonempty Y hY
        obtain ⟨q, hq⟩ := hH.nonempty Z hZ
        rcases hor with rfl | rfl
        · exact Finset.disjoint_right.1 hd hq (hsub (hYZ ▸ Finset.mem_union_right _ hq))
        · exact Finset.disjoint_left.1 hd ho (hsub (hYZ ▸ Finset.mem_union_left _ ho))
      exact ⟨fun hx hy => hproper (hv.least X hX hx hy), fun hy hz => hproper (hw.least X hX hy hz)⟩
    have hx := Finset.mem_union.1 (hYZ ▸ hv.left)
    have hy := Finset.mem_union.1 (hYZ ▸ hv.right)
    have hz := Finset.mem_union.1 (hYZ ▸ hw.right)
    have hsY := side hY (Or.inl rfl)
    have hsZ := side hZ (Or.inr rfl)
    rcases hy with hy | hy
    · exact ⟨Z, hZ, hx.resolve_left fun h => hsY.1 h hy, hz.resolve_left (hsY.2 hy),
        Finset.disjoint_left.1 hd hy⟩
    · exact ⟨Y, hY, hx.resolve_right fun h => hsZ.1 h hy, hz.resolve_right (hsZ.2 hy),
        Finset.disjoint_right.1 hd hy⟩
  · rintro ⟨X, hX, hxX, hzX, hyX⟩
    have hXv : X ⊆ v.labels := hH.subset_of_mem hX hvC hxX hv.left hv.right hyX
    have hXw : X ⊆ w.labels := hH.subset_of_mem hX hwC hzX hw.right hw.left hyX
    refine Forest.eq_of_labels_eq hF hv.mem hw.mem (Finset.Subset.antisymm ?_ ?_)
    · exact hv.least _ hwC (hXw hxX) hw.left
    · exact hw.least _ hvC hv.right (hXv hzX)

/-- The cherry of a triple does not depend on the order. -/
theorem triple_comm {C : Finset (Finset Label)} {x y z : Label} : Triple C x y z ↔ Triple C y x z :=
  ⟨fun ⟨X, hX, hx, hy, hz⟩ => ⟨X, hX, hy, hx, hz⟩, fun ⟨X, hX, hx, hy, hz⟩ => ⟨X, hX, hy, hx, hz⟩⟩

/-- **`checkIncompatibleTriple` decides whether three leaves are in conflict.** -/
theorem checkIncompatibleTriple_spec (hF : F.Valid) (hG : G.Valid) (ht : t ∈ F) (hu : u ∈ G)
    (hxy : x ≠ y) (hxz : x ≠ z) (hyz : y ≠ z) (hx : x ∈ t.labels ∧ x ∈ u.labels)
    (hy : y ∈ t.labels ∧ y ∈ u.labels) (hz : z ∈ t.labels ∧ z ∈ u.labels) :
    ∃ b, checkIncompatibleTriple x y z (buildForestData F) (buildForestData G) = some b ∧
      (b = true ↔ Conflict F.clusters G.clusters x y z) := by
  obtain ⟨a, ha, hla⟩ := getLCA_spec hF.distinct ht hx.1 hy.1
  obtain ⟨b, hb, hlb⟩ := getLCA_spec hF.distinct ht hy.1 hz.1
  obtain ⟨c, hc, hlc⟩ := getLCA_spec hF.distinct ht hx.1 hz.1
  obtain ⟨a', ha', hla'⟩ := getLCA_spec hG.distinct hu hx.2 hy.2
  obtain ⟨b', hb', hlb'⟩ := getLCA_spec hG.distinct hu hy.2 hz.2
  obtain ⟨c', hc', hlc'⟩ := getLCA_spec hG.distinct hu hx.2 hz.2
  unfold checkIncompatibleTriple
  rw [if_neg (by simp [hxy, hxz, hyz]), ha, hb, hc, ha', hb', hc']
  refine ⟨_, rfl, ?_⟩
  have e₁ := (edgeOf_inj hF.nodup hla.mem hlb.mem).trans (hla.eq_iff hF.distinct hlb hxy)
  have e₂ := (edgeOf_inj hF.nodup hla.mem hlc.mem).trans (hla.symm.eq_iff hF.distinct hlc hxy.symm)
  have e₃ := (edgeOf_inj hG.nodup hla'.mem hlb'.mem).trans (hla'.eq_iff hG.distinct hlb' hxy)
  have e₄ := (edgeOf_inj hG.nodup hla'.mem hlc'.mem).trans (hla'.symm.eq_iff hG.distinct hlc' hxy.symm)
  have e₅ := (edgeOf_inj hG.nodup hlc'.mem hlb'.mem).trans (hlc'.eq_iff hG.distinct hlb'.symm hxz)
  simp only [e₁, e₂, e₃, e₄, e₅, ne_eq]
  have hthree := (Forest.hierarchy hF.distinct).triple_of_mem
    (Forest.labels_mem_clusters (Forest.mem_subtrees.2 ⟨t, ht, t.mem_subtrees_self⟩)) hx.1 hy.1 hz.1 hxy hxz hyz
  have hnot : ∀ {p q r}, Triple F.clusters p q r → ¬Triple F.clusters q r p ∧ ¬Triple F.clusters p r q :=
    fun h => (Forest.hierarchy hF.distinct).not_triple_of_triple h
  unfold Conflict
  by_cases h₁ : Triple F.clusters x z y
  · have h₂ := hnot h₁
    have h₃ : ¬Triple F.clusters y z x := fun h => h₂.1 (triple_comm.1 h)
    simp [h₁, h₂.2, h₃]
  by_cases h₂ : Triple F.clusters y z x
  · have h₃ := hnot h₂
    have h₄ : ¬Triple F.clusters x y z := fun h => h₃.2 (triple_comm.1 h)
    simp [h₁, h₂, h₄]
  · have h₃ : Triple F.clusters x y z := by tauto
    simp [h₁, h₂, h₃]

end Ancestors

section Paths

variable {F : Forest} {t n w : Tree} {x y p q r s : Label}

/-- The parents of the built data are those of the forest. -/
theorem parent_ptr (hF : F.Valid) {u : Tree} (hn : n ∈ F.subtrees) (hu : F.parent n = some u) :
    (buildForestData F).parent n.ptr = some u.ptr := by
  rw [ForestData.parent, buildForestData, Forest.nodeAt_ptr hF.nodup hn, Option.bind_some, hu, Option.map_some]

/-- The edges on the way from `n` up to `w`. -/
def wayUp (F : Forest) (n w : Tree) : Finset ℕ :=
  ((F.subtrees.filter fun s => decide (n.labels ⊆ s.labels ∧ s.labels ⊂ w.labels)).map (edgeOf F)).toFinset

/-- The edges on the way up to an ancestor. -/
theorem mem_wayUp {i : ℕ} : i ∈ wayUp F n w ↔
    ∃ s ∈ F.subtrees, n.labels ⊆ s.labels ∧ s.labels ⊂ w.labels ∧ edgeOf F s = i := by
  simp [wayUp, and_assoc]

/-- **The way up from a node to one above it**, with enough fuel for the labels that
are passed. -/
theorem edgesUpTo_spec (hF : F.Valid) (hw : w ∈ F.subtrees) {fuel : ℕ} (hn : n ∈ w.subtrees)
    (hfuel : w.labels.card ≤ n.labels.card + fuel) :
    (buildForestData F).edgesUpTo w.ptr fuel n.ptr = some (wayUp F n w) := by
  have sub : ∀ {s}, s ∈ w.subtrees → s ∈ F.subtrees := fun hs => by
    obtain ⟨t, ht, hwt⟩ := Forest.mem_subtrees.1 hw
    exact Forest.mem_subtrees.2 ⟨t, ht, Tree.subtrees_trans hs hwt⟩
  have top : wayUp F w w = ∅ := by
    refine Finset.eq_empty_iff_forall_notMem.2 fun i hi => ?_
    obtain ⟨s, -, hs, hsw, -⟩ := mem_wayUp.1 hi
    exact hsw.2 hs
  induction fuel generalizing n with
  | zero =>
      have heq : n.labels = w.labels :=
        Finset.eq_of_subset_of_card_le (Tree.labels_subset_of_mem_subtrees hn) (by omega)
      obtain rfl := Forest.eq_of_labels_eq hF.distinct (sub hn) hw heq
      rw [ForestData.edgesUpTo, if_pos rfl, top]
  | succ fuel ih =>
      unfold ForestData.edgesUpTo
      by_cases hne : n.ptr = w.ptr
      · obtain rfl := Forest.eq_of_ptr_eq hF.nodup (sub hn) hw hne
        rw [if_pos rfl, top]
      · rw [if_neg hne]
        obtain ⟨k, l, r, hk, hc⟩ := (Forest.root_or_child (F := [w])
          (Forest.mem_subtrees.2 ⟨w, List.mem_singleton.2 rfl, hn⟩)).resolve_left
          fun h => hne (by rw [List.mem_singleton.1 h])
        have hkw : Tree.node k l r ∈ w.subtrees := by
          obtain ⟨v, hv, hkv⟩ := Forest.mem_subtrees.1 hk
          exact List.mem_singleton.1 hv ▸ hkv
        have hparent : F.parent n = some (.node k l r) :=
          (Forest.parent_eq_some_iff hF.distinct).2 ⟨sub hkw, hc.imp Eq.symm Eq.symm⟩
        have hD := hF.distinct.of_mem_subtrees (sub hkw)
        have hss : n.labels ⊂ (Tree.node k l r).labels := by
          refine ⟨?_, Tree.not_labels_subset_child hD ?_⟩
          · rcases hc with rfl | rfl
            · exact Finset.subset_union_left
            · exact Finset.subset_union_right
          · rcases hc with rfl | rfl
            · exact Or.inl (Tree.mem_subtrees_self _)
            · exact Or.inr (Tree.mem_subtrees_self _)
        have hcard := Finset.card_lt_card hss
        rw [show (buildForestData F).built = F from rfl, nodeToIndex_ptr (sub hn), Option.bind_some,
          parent_ptr hF (sub hn) hparent, Option.bind_some, ih hkw (by omega), Option.map_some]
        congr 1
        ext i
        rw [Finset.mem_insert, mem_wayUp, mem_wayUp]
        have hnw : n.labels ⊂ w.labels := hss.trans_subset (Tree.labels_subset_of_mem_subtrees hkw)
        constructor
        · rintro (rfl | ⟨s, hs, hks, hsw, rfl⟩)
          · exact ⟨n, sub hn, Finset.Subset.refl _, hnw, rfl⟩
          · exact ⟨s, hs, hss.1.trans hks, hsw, rfl⟩
        · rintro ⟨s, hs, hns, hsw, rfl⟩
          rcases Forest.eq_or_subset_of_child hF.distinct (sub hkw) hc hs hns with rfl | h
          · exact Or.inl rfl
          · exact Or.inr ⟨s, hs, h, hsw, rfl⟩

/-- A tree has at least as many nodes as labels. -/
theorem card_labels_le (t : Tree) : t.labels.card ≤ t.ptrs.length := by
  induction t with
  | leaf => simp
  | node k l r ihl ihr =>
      have := Finset.card_union_le l.labels r.labels
      simp only [Tree.labels, Tree.ptrs, List.length_cons, List.length_append]
      omega

/-- A tree has no more nodes than the forest. -/
theorem length_ptrs_le {F : Forest} {t : Tree} (ht : t ∈ F) : t.ptrs.length ≤ F.ptrs.length := by
  obtain ⟨A, B, rfl⟩ := List.append_of_mem ht
  simp only [Forest.ptrs, List.flatMap_append, List.flatMap_cons, List.length_append]
  omega

/-- The edges that separate two labels. -/
def pathEdges (F : Forest) (x y : Label) : Finset ℕ :=
  ((F.subtrees.filter fun s => decide (Separates s.labels x y)).map (edgeOf F)).toFinset

/-- The edges of a path separate its ends. -/
theorem mem_pathEdges {i : ℕ} :
    i ∈ pathEdges F x y ↔ ∃ s ∈ F.subtrees, Separates s.labels x y ∧ edgeOf F s = i := by
  simp [pathEdges, and_assoc]

/-- The path between two labels does not depend on their order. -/
theorem pathEdges_comm (F : Forest) (x y : Label) : pathEdges F x y = pathEdges F y x := by
  ext i
  simp only [mem_pathEdges, separates_comm (x := x)]

/-- The path between two labels has an edge. -/
theorem pathEdges_nonempty (hx : x ∈ F.labels) (hxy : x ≠ y) : (pathEdges F x y).Nonempty := by
  obtain ⟨k, m, hk⟩ := Forest.exists_leaf hx
  exact ⟨_, mem_pathEdges.2 ⟨_, hk, separates_iff.2 (Or.inl (by simpa using hxy.symm)), rfl⟩⟩

/-- **The path between two leaves of a tree** consists of the edges that separate
them. -/
theorem getPath_spec (hF : F.Valid) (ht : t ∈ F) (hx : x ∈ t.labels) (hy : y ∈ t.labels) (hxy : x ≠ y) :
    getPath x y (buildForestData F) = some (pathEdges F x y) := by
  -- the two leaves in the order of their labels
  have key : ∀ {a b : Label}, a ∈ t.labels → b ∈ t.labels → a ≠ b → min x y = a → max x y = b →
      getPath x y (buildForestData F) = some (pathEdges F a b) := by
    intro a b ha hb hab hmin hmax
    obtain ⟨v, hv, hlca⟩ := lcaNode_spec hF.distinct ht ha hb
    obtain ⟨k, m, hka, hkmem⟩ := labelToTerminal_spec hF.distinct ht ha
    obtain ⟨k', m', hkb, hkmem'⟩ := labelToTerminal_spec hF.distinct ht hb
    have hsub : ∀ {c k m}, c ∈ v.labels → Tree.leaf k c m ∈ t.subtrees → Tree.leaf k c m ∈ v.subtrees := by
      intro c k m hc hmem
      refine Forest.mem_subtrees_of_subset hF.distinct (Forest.mem_subtrees.2 ⟨t, ht, hmem⟩) hlca.mem ?_
      simpa using hc
    have hfuel : ∀ c k m, v.labels.card ≤ (Tree.leaf k c m).labels.card + F.ptrs.length := by
      intro c k m
      obtain ⟨t', ht', hvt⟩ := Forest.mem_subtrees.1 hlca.mem
      have h₁ := Finset.card_le_card (Tree.labels_subset_of_mem_subtrees hvt)
      have h₂ := card_labels_le t'
      have h₃ := length_ptrs_le ht'
      omega
    have hunion : wayUp F (.leaf k a m) v ∪ wayUp F (.leaf k' b m') v = pathEdges F a b := by
      have hvC := Forest.labels_mem_clusters hlca.mem
      have hH := Forest.hierarchy hF.distinct
      ext i
      rw [Finset.mem_union, mem_wayUp, mem_wayUp, mem_pathEdges]
      simp only [Tree.labels, Finset.singleton_subset_iff]
      constructor
      · rintro (⟨s, hs, has, hsv, rfl⟩ | ⟨s, hs, hbs, hsv, rfl⟩)
        · refine ⟨s, hs, separates_iff.2 (Or.inl ⟨has, fun hbs => hsv.2 ?_⟩), rfl⟩
          exact hlca.least _ (Forest.labels_mem_clusters hs) has hbs
        · refine ⟨s, hs, separates_iff.2 (Or.inr ⟨hbs, fun has => hsv.2 ?_⟩), rfl⟩
          exact hlca.least _ (Forest.labels_mem_clusters hs) has hbs
      · rintro ⟨s, hs, hsep, rfl⟩
        have hsC := Forest.labels_mem_clusters hs
        rcases separates_iff.1 hsep with ⟨h₁, h₂⟩ | ⟨h₁, h₂⟩
        · exact Or.inl ⟨s, hs, h₁, ⟨hH.subset_of_mem hsC hvC h₁ hlca.left hlca.right h₂,
            fun h => h₂ (h hlca.right)⟩, rfl⟩
        · exact Or.inr ⟨s, hs, h₁, ⟨hH.subset_of_mem hsC hvC h₁ hlca.right hlca.left h₂,
            fun h => h₂ (h hlca.left)⟩, rfl⟩
    have haF : a ∈ F.labels := Forest.mem_labels.2 ⟨t, ht, ha⟩
    unfold getPath
    dsimp only
    rw [hmin, hmax, hv, hka, hkb, Option.bind_some, Option.bind_some, Option.bind_some,
      show (buildForestData F).forestPtr = F from rfl,
      edgesUpTo_spec hF hlca.mem (hsub hlca.left hkmem) (hfuel a k m), Option.bind_some,
      edgesUpTo_spec hF hlca.mem (hsub hlca.right hkmem') (hfuel b k' m'), Option.bind_some, hunion,
      if_neg (pathEdges_nonempty haF hab).ne_empty]
  rcases le_total x y with h | h
  · exact key hx hy hxy (min_eq_left h) (max_eq_right h)
  · rw [key hy hx hxy.symm (min_eq_right h) (max_eq_left h), pathEdges_comm]

/-- **`areTwoPathsDisjoint` decides whether two paths share no edge.** -/
theorem areTwoPathsDisjoint_spec (hF : F.Valid) {u : Tree} (ht : t ∈ F) (hu : u ∈ F) (hp : p ∈ t.labels)
    (hq : q ∈ t.labels) (hr : r ∈ u.labels) (hs : s ∈ u.labels) (hpq : p ≠ q) (hrs : r ≠ s) :
    areTwoPathsDisjoint p q r s (buildForestData F) =
      some (decide (PathsDisjoint F.clusters p q r s)) := by
  have hpF : p ∈ F.labels := Forest.mem_labels.2 ⟨t, ht, hp⟩
  have hrF : r ∈ F.labels := Forest.mem_labels.2 ⟨u, hu, hr⟩
  unfold areTwoPathsDisjoint
  rw [getPath_spec hF ht hp hq hpq, getPath_spec hF hu hr hs hrs, Option.bind_some, Option.bind_some,
    if_neg (not_or.2 ⟨(pathEdges_nonempty hpF hpq).ne_empty, (pathEdges_nonempty hrF hrs).ne_empty⟩)]
  congr 1
  refine decide_eq_decide.2 ⟨fun h X hX hsep => ?_, fun h => Finset.disjoint_left.2 fun i hi hi' => ?_⟩
  · obtain ⟨v, hv, rfl⟩ := Forest.mem_clusters_iff.1 hX
    exact Finset.disjoint_left.1 h (mem_pathEdges.2 ⟨v, hv, hsep.1, rfl⟩)
      (mem_pathEdges.2 ⟨v, hv, hsep.2, rfl⟩)
  · obtain ⟨v, hv, hsep, rfl⟩ := mem_pathEdges.1 hi
    obtain ⟨v', hv', hsep', heq⟩ := mem_pathEdges.1 hi'
    obtain rfl := (edgeOf_inj hF.nodup hv' hv).1 heq
    exact h _ (Forest.labels_mem_clusters hv) ⟨hsep, hsep'⟩

end Paths

end Maf.ILP
