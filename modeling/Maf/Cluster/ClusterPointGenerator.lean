/-
# Cluster points

`src/Solver/Cluster/TwinRelation.cpp` links every node of every tree with its twins:
the twin in another tree is the least common ancestor of the twins of the children.
`src/Solver/Cluster/ClusterPointGenerator.cpp` takes those inner nodes of the first tree
whose twins, and the twins of them, have the same terminals and are twins of the node.

The twin of a node in a tree is the lowest node around its labels (`IsTwin`,
`mem_twinRelation`), so a node is taken exactly when each other tree has a node with the
same terminals (`clusterPoints_spec`).

Nodes of different trees are different objects, so a node is a tree with the index of
its forest.  The orders in which the keys of `LabelToTerminal` and a `std::set` of nodes
are iterated are parameters.
-/

import Maf.Cluster.LeastCommonAncestor
import Maf.CommonSubtree
import Maf.Scan

namespace Maf.Cluster

/-- A node of the forest with this index. -/
abbrev Node := ℕ × Tree

/-- `nodeToTwinBuffer`. -/
abbrev TwinBuffer := Tree → Option Tree

/-- The body of the loop of `prepareLeafTwins`. -/
def syncLeaf (homeForest foreignForest : Forest) (buffer : TwinBuffer) (label : Label) : TwinBuffer :=
  match homeForest.labelToTerminal label with
  | some terminal => Function.update buffer terminal (foreignForest.labelToTerminal label)
  | none => buffer

/-- `prepareLeafTwins`: every terminal of the home forest has that of the foreign forest
with the same label. -/
def prepareLeafTwins (keys : List Label) (homeForest foreignForest : Forest) : TwinBuffer :=
  keys.foldl (syncLeaf homeForest foreignForest) fun _ => none

/-- `generateInteriorTwinRelation`; `none` is an exception. -/
def generateInteriorTwinRelation (foreignLCA : LeastCommonAncestor) : Tree → TwinBuffer → Option TwinBuffer
  | .leaf p x m, buffer => if (buffer (.leaf p x m)).isSome then some buffer else none
  | .node p l r, buffer => do
      let buffer ← generateInteriorTwinRelation foreignLCA l buffer
      let buffer := Function.update buffer (.node p l r) (buffer l)
      let buffer ← generateInteriorTwinRelation foreignLCA r buffer
      let givenTwin ← buffer (.node p l r)
      let rightTwin ← buffer r
      let twin ← foreignLCA.getLeastCommonAncestor givenTwin rightTwin
      some (Function.update buffer (.node p l r) (some twin))

/-- `fuseTwinBufferToSets`. -/
def fuseTwinBufferToSets (home foreign : ℕ) (buffer : TwinBuffer) (nodeToTwins : Node → Finset Node) :
    Node → Finset Node := fun n =>
  if n.1 = home then nodeToTwins n ∪ ((buffer n.2).map fun twin => (foreign, twin)).toFinset else nodeToTwins n

/-- The body of the two loops of `TwinRelation`. -/
def syncTwins (keys : Forest → List Label) (forests : List Forest) (home foreign : ℕ)
    (nodeToTwins : Node → Finset Node) :
    Option (Node → Finset Node) :=
  if home = foreign then some nodeToTwins
  else do
    let homeForest ← forests[home]?
    let foreignForest ← forests[foreign]?
    let root ← homeForest.head?
    let buffer ← generateInteriorTwinRelation (leastCommonAncestor foreignForest) root
      (prepareLeafTwins (keys homeForest) homeForest foreignForest)
    some (fuseTwinBufferToSets home foreign buffer nodeToTwins)

/-- **The constructor of `TwinRelation`**: `nodeToTwins`. -/
def twinRelation (keys : Forest → List Label) (forests : List Forest) : Option (Node → Finset Node) :=
  (List.range forests.length).foldlM (fun nodeToTwins home =>
    (List.range forests.length).foldlM (fun nodeToTwins foreign => syncTwins keys forests home foreign nodeToTwins)
      nodeToTwins) fun _ => ∅

section Generator

variable (width : ℕ) (iterate : Finset Node → List Node) (nodeToTwins : Node → Finset Node)

/-- `nodeToTwins.at`: a node without an entry is an exception. -/
def twinsAt (n : Node) : Option (List Node) :=
  if nodeToTwins n = ∅ then none else some (iterate (nodeToTwins n))

/-- `leafEquivalent`. -/
def leafEquivalent (node : Node) : Option Bool := do
  let classOfTwins ← twinsAt iterate nodeToTwins node
  classOfTwins.allM fun twin =>
    if node.2.hasSameTerminals width twin.2 then do
      let twinsOfTwin ← twinsAt iterate nodeToTwins twin
      twinsOfTwin.allM fun twinOfTwin => some (node.2.hasSameTerminals width twinOfTwin.2)
    else some false

/-- `trueEquivalenceClass`. -/
def trueEquivalenceClass (node : Node) : Option Bool := do
  let setOfTwins ← twinsAt iterate nodeToTwins node
  setOfTwins.allM fun twin => do
    let twinsOfTwin ← twinsAt iterate nodeToTwins twin
    twinsOfTwin.allM fun twinOfTwin => some (decide (twinOfTwin ∈ setOfTwins ∨ twinOfTwin = node))

/-- `generateClusterPoints`: the points below a node of the first forest. -/
def generateClusterPoints (forest : Forest) : Tree → Option (List Tree)
  | .leaf .. => some []
  | .node p l r => do
      let left ← generateClusterPoints forest l
      let right ← generateClusterPoints forest r
      if (forest.parent (.node p l r)).isNone then some (left ++ right)
      else do
        let equivalent ← leafEquivalent width iterate nodeToTwins (0, .node p l r)
        if equivalent then do
          let trueClass ← trueEquivalenceClass iterate nodeToTwins (0, .node p l r)
          if trueClass then some (left ++ right ++ [.node p l r]) else some (left ++ right)
        else some (left ++ right)

end Generator

/-- **`wrappedConstructor`**: the table of the twins and the points found with it. -/
def clusterPoints (width : ℕ) (keys : Forest → List Label) (iterate : Finset Node → List Node)
    (forests : List Forest) : Option ((Node → Finset Node) × List Tree) := do
  let nodeToTwins ← twinRelation keys forests
  let forest ← forests.head?
  let root ← forest.head?
  let points ← generateClusterPoints width iterate nodeToTwins forest root
  some (nodeToTwins, points)

/-- **The twin of a node**: the lowest node of the forest around its labels. -/
structure IsTwin (G : Forest) (n w : Tree) : Prop where
  mem : w ∈ G.subtrees
  subset : n.labels ⊆ w.labels
  least : ∀ u ∈ G.subtrees, n.labels ⊆ u.labels → w.labels ⊆ u.labels

/-- Two or more trees over the same terminals. -/
structure IsInstance (width : ℕ) (forests : List Forest) : Prop where
  two : 2 ≤ forests.length
  fits : ∀ F ∈ forests, F.Fits width
  single : ∀ F ∈ forests, ∃ t, F = [t]
  same : ∀ F ∈ forests, ∀ G ∈ forests, F.SameTerminals G

section Twins

variable {F G : Forest} {n w t : Tree}

/-- A node has at most one twin in a forest. -/
theorem IsTwin.unique (hG : G.Distinct) {w' : Tree} (h : IsTwin G n w) (h' : IsTwin G n w') : w = w' :=
  Forest.eq_of_labels_eq hG h.mem h'.mem
    (Finset.Subset.antisymm (h.least w' h'.mem h'.subset) (h'.least w h.mem h.subset))

/-- A node with the same labels is the twin. -/
theorem isTwin_of_labels_eq (hw : w ∈ G.subtrees) (h : n.labels = w.labels) : IsTwin G n w :=
  ⟨hw, h.subset, fun _ _ hu => h ▸ hu⟩

/-- **The twin of an inner node** is the lowest node around the twins of the children. -/
theorem isTwin_node {p : Ptr} {l r a b : Tree} (ha : IsTwin [t] l a) (hb : IsTwin [t] r b) (h : IsLca t a b w) :
    IsTwin [t] (.node p l r) w := by
  have hsub : ∀ {u}, u ∈ Forest.subtrees [t] ↔ u ∈ t.subtrees := fun {u} => by simp [Forest.mem_subtrees]
  refine ⟨hsub.2 h.mem, Finset.union_subset (ha.subset.trans h.left) (hb.subset.trans h.right), fun u hu hlr => ?_⟩
  obtain ⟨hl, hr⟩ := Finset.union_subset_iff.1 hlr
  exact h.least _ (Tree.mem_clusters_iff.2 ⟨u, hsub.1 hu, rfl⟩) (ha.least u hu hl) (hb.least u hu hr)

/-- The two children have no common subtree. -/
theorem disjoint_subtrees {p : Ptr} {l r : Tree} (ht : (Tree.node p l r).Distinct) (hl : n ∈ l.subtrees) :
    n ∉ r.subtrees := fun hr => by
  obtain ⟨x, hx⟩ := n.labels_nonempty
  exact Finset.disjoint_left.1 ht.2.2 (Tree.labels_subset_of_mem_subtrees hl hx)
    (Tree.labels_subset_of_mem_subtrees hr hx)

/-- A node is not below its children. -/
theorem node_notMem {p : Ptr} {l r : Tree} (ht : (Tree.node p l r).Distinct) :
    Tree.node p l r ∉ l.subtrees ∧ Tree.node p l r ∉ r.subtrees :=
  ⟨fun h => Tree.not_labels_subset_child ht (Or.inl h) (Finset.Subset.refl _),
    fun h => Tree.not_labels_subset_child ht (Or.inr h) (Finset.Subset.refl _)⟩

/-- **`generateInteriorTwinRelation` finds the twins** of all nodes below a node, when
the buffer has those of the leaves, and keeps the other entries. -/
theorem generateInteriorTwinRelation_spec (hG : Forest.Distinct [t]) {s : Tree} (hs : s.Distinct)
    {buffer : TwinBuffer} (hleaf : ∀ p x m, Tree.leaf p x m ∈ s.subtrees →
      ∃ w, buffer (.leaf p x m) = some w ∧ IsTwin [t] (.leaf p x m) w) :
    ∃ buffer', generateInteriorTwinRelation (leastCommonAncestor [t]) s buffer = some buffer' ∧
      (∀ n ∈ s.subtrees, ∃ w, buffer' n = some w ∧ IsTwin [t] n w) ∧ ∀ n ∉ s.subtrees, buffer' n = buffer n := by
  induction s generalizing buffer with
  | leaf p x m =>
      obtain ⟨w, hw, htwin⟩ := hleaf p x m (Tree.mem_subtrees_self _)
      refine ⟨buffer, by simp [generateInteriorTwinRelation, hw], fun n hn => ?_, fun n _ => rfl⟩
      exact List.mem_singleton.1 hn ▸ ⟨w, hw, htwin⟩
  | node p l r ihl ihr =>
      have hself : Tree.node p l r ∉ r.subtrees := (node_notMem hs).2
      obtain ⟨b₁, hrun₁, hl, hkeep₁⟩ := ihl hs.1 fun p x m h =>
        hleaf p x m (Tree.mem_subtrees_node.2 (Or.inr (Or.inl h)))
      obtain ⟨a, ha, hatwin⟩ := hl l (Tree.mem_subtrees_self l)
      have hleafR : ∀ q x m, Tree.leaf q x m ∈ r.subtrees → ∃ w,
          Function.update b₁ (.node p l r) (b₁ l) (.leaf q x m) = some w ∧ IsTwin [t] (.leaf q x m) w :=
              fun q x m h => by
        rw [Function.update_of_ne (by simp), hkeep₁ _ fun h' => disjoint_subtrees hs h' h]
        exact hleaf q x m (Tree.mem_subtrees_node.2 (Or.inr (Or.inr h)))
      obtain ⟨b₃, hrun₃, hr, hkeep₃⟩ := ihr hs.2.1 hleafR
      obtain ⟨b, hb, hbtwin⟩ := hr r (Tree.mem_subtrees_self r)
      have hgiven : b₃ (.node p l r) = some a := by rw [hkeep₃ _ hself, Function.update_self, ha]
      have hsub : ∀ {u}, u ∈ Forest.subtrees [t] → u ∈ t.subtrees := fun {u} hu => by
        simpa [Forest.mem_subtrees] using hu
      obtain ⟨w, hw, hlca⟩ := getLeastCommonAncestor_spec hG (List.mem_singleton_self t) (hsub hatwin.mem)
        (hsub hbtwin.mem)
      refine ⟨Function.update b₃ (.node p l r) (some w), ?_, fun n hn => ?_, fun n hn => ?_⟩
      · simp only [generateInteriorTwinRelation, hrun₁, hrun₃, hgiven, hb, hw, Option.bind_eq_bind, Option.bind_some]
      · rcases Tree.mem_subtrees_node.1 hn with rfl | hn | hn
        · exact ⟨w, Function.update_self .., isTwin_node hatwin hbtwin hlca⟩
        · have hne : n ≠ .node p l r := fun h => (node_notMem hs).1 (h ▸ hn)
          rw [Function.update_of_ne hne, hkeep₃ n (disjoint_subtrees hs hn), Function.update_of_ne hne]
          exact hl n hn
        · rw [Function.update_of_ne fun h : n = .node p l r => hself (h ▸ hn)]
          exact hr n hn
      · rw [Tree.mem_subtrees_node, not_or, not_or] at hn
        rw [Function.update_of_ne hn.1, hkeep₃ n hn.2.2, Function.update_of_ne hn.1, hkeep₁ n hn.2.1]

/-- The terminals of the same label in two forests with the same terminals. -/
theorem labelToTerminal_sameTerminals (hF : F.Valid) (hG : G.Valid) (hsame : F.SameTerminals G) {x : Label}
    (hn : F.labelToTerminal x = some n) :
    ∃ w, G.labelToTerminal x = some w ∧ w ∈ G.subtrees ∧ n.Identical w := by
  obtain ⟨hmem, hterm, hx⟩ := (Forest.labelToTerminal_eq_some_iff hF).1 hn
  cases n with
  | node => cases hterm
  | leaf p y m =>
      obtain ⟨q, hq⟩ := (hsame y m).1 ⟨p, hmem⟩
      exact ⟨_, (Forest.labelToTerminal_eq_some_iff hG).2 ⟨hq, rfl, hx⟩, hq, rfl, rfl⟩

/-- The buffer after the loop over the keys. -/
theorem foldl_syncLeaf (keys : List Label) (buffer : TwinBuffer) (n : Tree) :
    keys.foldl (syncLeaf F G) buffer n = buffer n ∧ (∀ x ∈ keys, F.labelToTerminal x ≠ some n) ∨
      ∃ x ∈ keys, F.labelToTerminal x = some n ∧ keys.foldl (syncLeaf F G) buffer n = G.labelToTerminal x := by
  induction keys generalizing buffer with
  | nil => exact Or.inl ⟨rfl, fun x hx => absurd hx List.not_mem_nil⟩
  | cons x keys ih =>
      rw [List.foldl_cons, List.forall_mem_cons]
      rcases ih (syncLeaf F G buffer x) with ⟨hn, hno⟩ | ⟨y, hy, hn, hG⟩
      · rw [hn, syncLeaf]
        cases h : F.labelToTerminal x with
        | none => exact Or.inl ⟨rfl, by simp, hno⟩
        | some u =>
            by_cases hu : u = n
            · subst hu
              exact Or.inr ⟨x, List.mem_cons_self .., h, Function.update_self ..⟩
            · exact Or.inl ⟨Function.update_of_ne (Ne.symm hu) .., fun h' => hu (Option.some.inj h'), hno⟩
      · exact Or.inr ⟨y, List.mem_cons_of_mem _ hy, hn, hG⟩

/-- **`prepareLeafTwins` gives every terminal its twin**, whatever the order of the keys. -/
theorem prepareLeafTwins_spec (hF : F.Valid) (hG : G.Valid) (hsame : F.SameTerminals G) {keys : List Label}
    (hkeys : ∀ x, x ∈ keys ↔ (F.labelToTerminal x).isSome) :
    (∀ n ∈ F.subtrees, n.isTerminal = true → ∃ w, prepareLeafTwins keys F G n = some w ∧ IsTwin G n w) ∧
      ∀ n ∉ F.subtrees, prepareLeafTwins keys F G n = none := by
  refine ⟨fun n hn hterm => ?_, fun n hn => ?_⟩
  · have hx := (Forest.labelToTerminal_eq_some_iff hF).2
      ⟨hn, hterm, Tree.labels_subset_subtreeTerminals n n.least_mem_labels⟩
    rcases foldl_syncLeaf (G := G) keys (fun _ => none) n with ⟨-, hno⟩ | ⟨x, -, hx, heq⟩
    · exact absurd hx (hno _ ((hkeys _).2 (by rw [hx]; rfl)))
    · obtain ⟨w, hw, hmem, hid⟩ := labelToTerminal_sameTerminals hF hG hsame hx
      exact ⟨w, heq.trans hw, isTwin_of_labels_eq hmem hid.labels_eq⟩
  · rcases foldl_syncLeaf (G := G) keys (fun _ => none) n with ⟨heq, -⟩ | ⟨x, -, hx, -⟩
    · exact heq
    · exact absurd ((Forest.labelToTerminal_eq_some_iff hF).1 hx).1 hn

end Twins

section Table

variable {width : ℕ} {keys : Forest → List Label} {forests : List Forest}

/-- The keys of `LabelToTerminal`. -/
def IsKeys (keys : Forest → List Label) (forests : List Forest) : Prop :=
  ∀ F ∈ forests, ∀ x, x ∈ keys F ↔ (F.labelToTerminal x).isSome

/-- The node `m` is the twin of the node `n` in another forest. -/
def Linked (forests : List Forest) (n m : Node) : Prop :=
  n.1 ≠ m.1 ∧ ∃ F G, forests[n.1]? = some F ∧ forests[m.1]? = some G ∧ n.2 ∈ F.subtrees ∧ IsTwin G n.2 m.2

/-- **One pass** adds the twins in one forest to the nodes of another one. -/
theorem syncTwins_spec (hI : IsInstance width forests) (hkeys : IsKeys keys forests) {i j : ℕ}
    (hi : i < forests.length) (hj : j < forests.length) (nodeToTwins : Node → Finset Node) :
    ∃ r, syncTwins keys forests i j nodeToTwins = some r ∧
      ∀ n m, m ∈ r n ↔ m ∈ nodeToTwins n ∨ (n.1 = i ∧ m.1 = j) ∧ Linked forests n m := by
  by_cases hij : i = j
  · subst hij
    refine ⟨nodeToTwins, by rw [syncTwins, if_pos rfl], fun n m => ⟨Or.inl, fun h => h.resolve_right ?_⟩⟩
    rintro ⟨⟨hn, hm⟩, hne, -⟩
    exact hne (hn.trans hm.symm)
  · have hF := List.getElem_mem hi
    have hG := List.getElem_mem hj
    have hgetF := List.getElem?_eq_getElem hi
    have hgetG := List.getElem?_eq_getElem hj
    generalize forests[i] = F at hF hgetF
    generalize forests[j] = G at hG hgetG
    obtain ⟨hleaf, hnone⟩ := prepareLeafTwins_spec (hI.fits F hF).valid (hI.fits G hG).valid (hI.same F hF G hG)
      (hkeys F hF)
    obtain ⟨s, rfl⟩ := hI.single F hF
    obtain ⟨t, rfl⟩ := hI.single G hG
    have hsub : ∀ {u s : Tree}, u ∈ Forest.subtrees [s] ↔ u ∈ s.subtrees := fun {u s} => by
      simp [Forest.mem_subtrees]
    have hdG := (hI.fits [t] hG).valid.distinct
    obtain ⟨buffer, hrun, htwins, hkeep⟩ := generateInteriorTwinRelation_spec hdG
      ((hI.fits [s] hF).valid.distinct.of_mem (List.mem_singleton_self s))
      fun p x m h => hleaf _ (hsub.2 h) rfl
    refine ⟨fuseTwinBufferToSets i j buffer nodeToTwins, ?_, fun n m => ?_⟩
    · rw [syncTwins, if_neg hij, hgetF, hgetG]
      simp only [Option.bind_eq_bind, Option.bind_some, List.head?_cons, hrun]
    · rw [fuseTwinBufferToSets]
      by_cases hn : n.1 = i
      · rw [if_pos hn, Finset.mem_union, Option.mem_toFinset, Option.mem_def, Option.map_eq_some_iff]
        refine or_congr_right ⟨?_, ?_⟩
        · rintro ⟨w, hw, rfl⟩
          have hmem : n.2 ∈ s.subtrees := by
            by_contra hno
            rw [hkeep _ hno, hnone _ fun h => hno (hsub.1 h)] at hw
            cases hw
          obtain ⟨w', hw', htwin⟩ := htwins n.2 hmem
          obtain rfl := Option.some.inj (hw.symm.trans hw')
          exact ⟨⟨hn, rfl⟩, fun h => hij (hn.symm.trans h), [s], [t], by rw [hn, hgetF], hgetG, hsub.2 hmem, htwin⟩
        · rintro ⟨⟨-, hm⟩, -, F, G, hF', hG', hmem, htwin⟩
          rw [hn, hgetF] at hF'
          rw [hm, hgetG] at hG'
          obtain rfl := Option.some.inj hF'
          obtain rfl := Option.some.inj hG'
          obtain ⟨w, hw, htwin'⟩ := htwins n.2 (hsub.1 hmem)
          exact ⟨w, hw, Prod.ext hm.symm (htwin'.unique hdG htwin)⟩
      · rw [if_neg hn]
        exact ⟨Or.inl, fun h => h.resolve_right fun h' => hn h'.1.1⟩

/-- A loop each of whose passes adds some links adds them all. -/
theorem foldlM_links {α : Type} {l : List α} {f : (Node → Finset Node) → α → Option (Node → Finset Node)}
    {P : α → Node → Node → Prop} (h : ∀ a ∈ l, ∀ s, ∃ r, f s a = some r ∧ ∀ n m, m ∈ r n ↔ m ∈ s n ∨ P a n m)
    (s : Node → Finset Node) :
    ∃ r, l.foldlM f s = some r ∧ ∀ n m, m ∈ r n ↔ m ∈ s n ∨ ∃ a ∈ l, P a n m := by
  induction l generalizing s with
  | nil => exact ⟨s, rfl, by simp⟩
  | cons a l ih =>
      rw [List.forall_mem_cons] at h
      obtain ⟨s', hs', hlinks'⟩ := h.1 s
      obtain ⟨r, hr, hlinks⟩ := ih h.2 s'
      refine ⟨r, by rw [List.foldlM_cons, hs']; exact hr, fun n m => ?_⟩
      rw [hlinks, hlinks', List.exists_mem_cons_iff, or_assoc]

/-- **`nodeToTwins` links every node with its twins in the other trees.** -/
theorem mem_twinRelation (hI : IsInstance width forests) (hkeys : IsKeys keys forests) :
    ∃ nodeToTwins, twinRelation keys forests = some nodeToTwins ∧
      ∀ n m, m ∈ nodeToTwins n ↔ Linked forests n m := by
  obtain ⟨r, hr, hlinks⟩ := foldlM_links (fun i hi s => foldlM_links (fun j hj s =>
    syncTwins_spec hI hkeys (List.mem_range.1 hi) (List.mem_range.1 hj) s) s) (fun _ => ∅)
  refine ⟨r, hr, fun n m => ?_⟩
  rw [hlinks]
  constructor
  · rintro (h | ⟨i, -, j, -, -, h⟩)
    · exact absurd h (Finset.notMem_empty m)
    · exact h
  · intro h
    obtain ⟨F, G, hF, hG, -⟩ := h.2
    exact Or.inr ⟨n.1, List.mem_range.2 (List.getElem?_eq_some_iff.1 hF).1, m.1,
      List.mem_range.2 (List.getElem?_eq_some_iff.1 hG).1, ⟨rfl, rfl⟩, h⟩

/-- Every node has a twin in every tree with its labels. -/
theorem exists_isTwin {t v : Tree} (ht : Forest.Distinct [t]) (h : v.labels ⊆ t.labels) : ∃ w, IsTwin [t] v w := by
  have hroot : t.labels ∈ (Forest.clusters [t]).filter (v.labels ⊆ ·) :=
    Finset.mem_filter.2 ⟨Forest.labels_mem_clusters (by simp [Forest.mem_subtrees, Tree.mem_subtrees_self]), h⟩
  obtain ⟨X, hX, hmin⟩ := Finset.exists_min_image _ Finset.card ⟨_, hroot⟩
  obtain ⟨hmem, hsub⟩ := Finset.mem_filter.1 hX
  obtain ⟨w, hw, rfl⟩ := Forest.mem_clusters_iff.1 hmem
  refine ⟨w, hw, hsub, fun u hu hvu => ?_⟩
  rcases (Forest.hierarchy ht).nested _ hmem _ (Forest.labels_mem_clusters hu) with h' | h' | h'
  · exact h'
  · exact (Finset.eq_of_subset_of_card_le h'
      (hmin _ (Finset.mem_filter.2 ⟨Forest.labels_mem_clusters hu, hvu⟩))).ge
  · obtain ⟨x, hx⟩ := v.labels_nonempty
    exact absurd (hvu hx) (Finset.disjoint_left.1 h' (hsub hx))

end Table

section Points

variable {width : ℕ} {iterate : Finset Node → List Node} {nodeToTwins : Node → Finset Node} {forests : List Forest}
  {n : Node} {v : Tree} {F : Forest}

/-- A node that belongs to one of the forests. -/
def IsNode (forests : List Forest) (n : Node) : Prop := ∃ F, forests[n.1]? = some F ∧ n.2 ∈ F.subtrees

/-- Linked nodes belong to the forests. -/
theorem Linked.isNode {m : Node} (h : Linked forests n m) : IsNode forests n ∧ IsNode forests m := by
  obtain ⟨-, F, G, hF, hG, hn, htwin⟩ := h
  exact ⟨⟨F, hF, hn⟩, G, hG, htwin.mem⟩

/-- Every node has an entry. -/
theorem exists_linked (hI : IsInstance width forests) (hn : IsNode forests n) {j : ℕ} (hne : n.1 ≠ j)
    (hj : j < forests.length) : ∃ w, Linked forests n (j, w) := by
  obtain ⟨F, hF, hmem⟩ := hn
  have hG := List.getElem_mem hj
  have hgetG := List.getElem?_eq_getElem hj
  generalize forests[j] = G at hG hgetG
  obtain ⟨t, rfl⟩ := hI.single G hG
  have hsub : n.2.labels ⊆ t.labels := by
    have heq := Forest.labels_eq_of_sameTerminals (hI.same F (List.mem_of_getElem? hF) [t] hG)
    have := Forest.subset_labels (Forest.labels_mem_clusters hmem)
    rw [heq] at this
    simpa [Forest.labels] using this
  obtain ⟨w, hw⟩ := exists_isTwin (hI.fits _ hG).valid.distinct hsub
  exact ⟨w, hne, F, [t], hF, hgetG, hmem, hw⟩

/-- The twins of a node are looked up. -/
theorem twinsAt_eq (hI : IsInstance width forests) (hT : ∀ n m, m ∈ nodeToTwins n ↔ Linked forests n m)
    (hn : IsNode forests n) : twinsAt iterate nodeToTwins n = some (iterate (nodeToTwins n)) := by
  refine if_neg (Finset.nonempty_iff_ne_empty.1 ?_)
  have htwo := hI.two
  by_cases h₀ : n.1 = 0
  · obtain ⟨w, hw⟩ := exists_linked hI hn (by omega : n.1 ≠ 1) (by omega)
    exact ⟨_, (hT _ _).2 hw⟩
  · obtain ⟨w, hw⟩ := exists_linked hI hn h₀ (by omega)
    exact ⟨_, (hT _ _).2 hw⟩

/-- `leafEquivalent` and `trueEquivalenceClass` look at the twins and their twins. -/
theorem leafEquivalent_spec (hI : IsInstance width forests) (hiter : ∀ s m, m ∈ iterate s ↔ m ∈ s)
    (hT : ∀ n m, m ∈ nodeToTwins n ↔ Linked forests n m) (hn : IsNode forests n) :
    ∃ b, leafEquivalent width iterate nodeToTwins n = some b ∧ (b = true ↔ ∀ m, Linked forests n m →
      n.2.hasSameTerminals width m.2 = true ∧ ∀ k, Linked forests m k → n.2.hasSameTerminals width k.2 = true) := by
  obtain ⟨b, hb, hiff⟩ := Scan.allM_spec (l := iterate (nodeToTwins n)) (P := fun m =>
    n.2.hasSameTerminals width m.2 = true ∧ ∀ k, Linked forests m k → n.2.hasSameTerminals width k.2 = true)
    (f := fun twin => if n.2.hasSameTerminals width twin.2 then
      (twinsAt iterate nodeToTwins twin).bind fun twinsOfTwin =>
        twinsOfTwin.allM fun twinOfTwin => some (n.2.hasSameTerminals width twinOfTwin.2) else some false)
    fun m hm => by
      rw [hiter, hT] at hm
      by_cases hsame : n.2.hasSameTerminals width m.2 = true
      · obtain ⟨c, hc, hciff⟩ := Scan.allM_spec (l := iterate (nodeToTwins m))
          (P := fun k => n.2.hasSameTerminals width k.2 = true) fun k _ => ⟨_, rfl, Iff.rfl⟩
        refine ⟨c, by rw [if_pos hsame, twinsAt_eq hI hT hm.isNode.2]; exact hc, ?_⟩
        rw [hciff, and_iff_right hsame]
        exact forall_congr' fun k => by rw [hiter, hT]
      · exact ⟨false, if_neg hsame, by simp [hsame]⟩
  refine ⟨b, by rw [leafEquivalent, twinsAt_eq hI hT hn]; exact hb, hiff.trans ?_⟩
  exact forall_congr' fun k => by rw [hiter, hT]

/-- `trueEquivalenceClass` tells whether the links around a node are transitive. -/
theorem trueEquivalenceClass_spec (hI : IsInstance width forests) (hiter : ∀ s m, m ∈ iterate s ↔ m ∈ s)
    (hT : ∀ n m, m ∈ nodeToTwins n ↔ Linked forests n m) (hn : IsNode forests n) :
    ∃ b, trueEquivalenceClass iterate nodeToTwins n = some b ∧ (b = true ↔ ∀ m, Linked forests n m →
      ∀ k, Linked forests m k → Linked forests n k ∨ k = n) := by
  obtain ⟨b, hb, hiff⟩ := Scan.allM_spec (l := iterate (nodeToTwins n))
    (P := fun m => ∀ k, Linked forests m k → Linked forests n k ∨ k = n)
    (f := fun twin => (twinsAt iterate nodeToTwins twin).bind fun twinsOfTwin =>
      twinsOfTwin.allM fun k => some (decide (k ∈ iterate (nodeToTwins n) ∨ k = n)))
    fun m hm => by
      rw [hiter, hT] at hm
      obtain ⟨c, hc, hciff⟩ := Scan.allM_spec (l := iterate (nodeToTwins m))
        (P := fun k => k ∈ iterate (nodeToTwins n) ∨ k = n) fun k _ => ⟨_, rfl, decide_eq_true_iff⟩
      refine ⟨c, by rw [twinsAt_eq hI hT hm.isNode.2]; exact hc, hciff.trans ?_⟩
      exact forall_congr' fun k => by rw [hiter, hT, hiter, hT]
  refine ⟨b, by rw [trueEquivalenceClass, twinsAt_eq hI hT hn]; exact hb, hiff.trans ?_⟩
  exact forall_congr' fun k => by rw [hiter, hT]

/-- **A common label set**: every other tree has a node with the same labels below it. -/
def IsCommonCluster (forests : List Forest) (v : Tree) : Prop :=
  ∀ j G, j ≠ 0 → forests[j]? = some G → ∃ w ∈ G.subtrees, w.subtreeTerminals = v.subtreeTerminals

/-- The twins of a common label set are the nodes with these labels. -/
theorem IsCommonCluster.labels_eq (hI : IsInstance width forests) (h₀ : forests[0]? = some F) (hv : v ∈ F.subtrees)
    (h : IsCommonCluster forests v) {m : Node} {u : Tree} (hu : u.labels = v.labels) (hm : Linked forests n m)
    (hn : n.2 = u) : m.2.labels = v.labels ∧ m.2.subtreeTerminals = v.subtreeTerminals := by
  obtain ⟨-, F', G, -, hG, -, htwin⟩ := hm
  have hmemF := List.mem_of_getElem? h₀
  have hmemG := List.mem_of_getElem? hG
  obtain ⟨w, hw, hwv⟩ : ∃ w ∈ G.subtrees, w.subtreeTerminals = v.subtreeTerminals := by
    by_cases hj : m.1 = 0
    · rw [hj, h₀] at hG
      exact ⟨v, Option.some.inj hG ▸ hv, rfl⟩
    · exact h m.1 G hj hG
  have hlab := Forest.labels_eq_of_subtreeTerminals_eq (hI.fits F hmemF).valid (hI.fits G hmemG).valid
    (hI.same F hmemF G hmemG) hv hw hwv.symm
  have := (isTwin_of_labels_eq hw ((hn ▸ hu).trans hlab)).unique (hI.fits G hmemG).valid.distinct htwin
  exact this ▸ ⟨hlab.symm, hwv⟩

/-- **Exactly the common label sets pass both checks.** -/
theorem accepted_iff (hI : IsInstance width forests) (h₀ : forests[0]? = some F) (hv : v ∈ F.subtrees) :
    (∀ m, Linked forests (0, v) m → v.hasSameTerminals width m.2 = true ∧
        ∀ k, Linked forests m k → v.hasSameTerminals width k.2 = true) ∧
      (∀ m, Linked forests (0, v) m → ∀ k, Linked forests m k → Linked forests (0, v) k ∨ k = (0, v)) ↔
    IsCommonCluster forests v := by
  have hnode : IsNode forests (0, v) := ⟨F, h₀, hv⟩
  have hwithin : ∀ {n : Node}, IsNode forests n → Bitset.Within width n.2.subtreeTerminals := fun {n} hn => by
    obtain ⟨G, hG, hmem⟩ := hn
    exact ((hI.fits G (List.mem_of_getElem? hG)).of_mem hmem).2
  have hsame : ∀ {m : Node}, IsNode forests m →
      (v.hasSameTerminals width m.2 = true ↔ v.subtreeTerminals = m.2.subtreeTerminals) :=
    fun hm => Tree.hasSameTerminals_iff (hwithin hnode) (hwithin hm)
  constructor
  · rintro ⟨hleaf, -⟩ j G hj hG
    obtain ⟨w, hw⟩ := exists_linked hI hnode (Ne.symm hj) (List.getElem?_eq_some_iff.1 hG).1
    obtain ⟨F', G', -, hG', -, htwin⟩ := hw.2
    obtain rfl := Option.some.inj (hG.symm.trans hG')
    exact ⟨w, htwin.mem, ((hsame hw.isNode.2).1 (hleaf _ hw).1).symm⟩
  · intro h
    refine ⟨fun m hm => ?_, fun m hm k hk => ?_⟩
    · obtain ⟨hlab, hterm⟩ := h.labels_eq hI h₀ hv rfl hm rfl
      exact ⟨(hsame hm.isNode.2).2 hterm.symm,
        fun k hk => (hsame hk.isNode.2).2 (h.labels_eq hI h₀ hv hlab hk rfl).2.symm⟩
    · obtain ⟨hlab, -⟩ := h.labels_eq hI h₀ hv rfl hm rfl
      have hk' := (h.labels_eq hI h₀ hv hlab hk rfl).1
      obtain ⟨G, hG, hmem⟩ := hk.isNode.2
      by_cases hzero : k.1 = 0
      · rw [hzero, h₀] at hG
        obtain rfl := Option.some.inj hG
        exact Or.inr (Prod.ext hzero (Forest.eq_of_labels_eq
          (hI.fits F (List.mem_of_getElem? h₀)).valid.distinct hmem hv hk'))
      · exact Or.inl ⟨Ne.symm hzero, F, G, h₀, hG, hv, isTwin_of_labels_eq hmem hk'.symm⟩

/-- **The points below a node**: the inner nodes with a parent and a common label set,
every node before the nodes above it. -/
theorem generateClusterPoints_spec (hI : IsInstance width forests) (hiter : ∀ s m, m ∈ iterate s ↔ m ∈ s)
    (hT : ∀ n m, m ∈ nodeToTwins n ↔ Linked forests n m) (h₀ : forests[0]? = some F) (hv : v ∈ F.subtrees) :
    ∃ points, generateClusterPoints width iterate nodeToTwins F v = some points ∧
      (∀ u, u ∈ points ↔ u ∈ v.subtrees ∧ u.isTerminal = false ∧ F.parent u ≠ none ∧ IsCommonCluster forests u) ∧
      points.Pairwise fun u w => w ∉ u.subtrees := by
  induction v with
  | leaf p x m =>
      refine ⟨[], rfl, fun u => ⟨fun h => absurd h List.not_mem_nil, ?_⟩, List.Pairwise.nil⟩
      rintro ⟨hu, hinner, -⟩
      rw [List.mem_singleton.1 hu] at hinner
      cases hinner
  | node p l r ihl ihr =>
      obtain ⟨hlF, hrF⟩ := Forest.mem_subtrees_children hv
      have hd := (hI.fits F (List.mem_of_getElem? h₀)).valid.distinct.of_mem_subtrees hv
      obtain ⟨left, hleft, hmemL, hpairL⟩ := ihl hlF
      obtain ⟨right, hright, hmemR, hpairR⟩ := ihr hrF
      have hpair : (left ++ right).Pairwise fun u w => w ∉ u.subtrees := by
        refine List.pairwise_append.2 ⟨hpairL, hpairR, fun u hu w hw hwu => ?_⟩
        exact disjoint_subtrees hd (Tree.subtrees_trans hwu ((hmemL u).1 hu).1) ((hmemR w).1 hw).1
      have hbelow : ∀ u ∈ left ++ right, Tree.node p l r ∉ u.subtrees := fun u hu hself => by
        rcases List.mem_append.1 hu with hu | hu
        · exact (node_notMem hd).1 (Tree.subtrees_trans hself ((hmemL u).1 hu).1)
        · exact (node_notMem hd).2 (Tree.subtrees_trans hself ((hmemR u).1 hu).1)
      have hmem : ∀ u, u ∈ left ++ right ↔ (u ∈ l.subtrees ∨ u ∈ r.subtrees) ∧ u.isTerminal = false ∧
          F.parent u ≠ none ∧ IsCommonCluster forests u := fun u => by
        rw [List.mem_append, hmemL, hmemR, or_and_right]
      -- the node itself is left out
      have skip : ¬(F.parent (.node p l r) ≠ none ∧ IsCommonCluster forests (.node p l r)) →
          ∀ u, u ∈ left ++ right ↔ u ∈ (Tree.node p l r).subtrees ∧ u.isTerminal = false ∧ F.parent u ≠ none ∧
            IsCommonCluster forests u := fun hno u => by
        rw [hmem, Tree.mem_subtrees_node]
        refine and_congr_left fun h => ⟨Or.inr, fun h' => h'.resolve_left ?_⟩
        rintro rfl
        exact hno h.2
      have hnode : IsNode forests (0, .node p l r) := ⟨F, h₀, hv⟩
      obtain ⟨b, hb, hbiff⟩ := leafEquivalent_spec hI hiter hT hnode
      obtain ⟨c, hc, hciff⟩ := trueEquivalenceClass_spec hI hiter hT hnode
      have haccept := accepted_iff hI h₀ hv
      rw [← hbiff, ← hciff] at haccept
      simp only [generateClusterPoints, hleft, hright, hb, hc, Option.bind_eq_bind, Option.bind_some]
      cases hparent : F.parent (.node p l r) with
      | none =>
          rw [if_pos (by rfl)]
          exact ⟨_, rfl, skip fun h => h.1 hparent, hpair⟩
      | some q =>
          rw [if_neg (by simp)]
          cases b with
          | false => exact ⟨_, rfl, skip fun h => absurd (haccept.2 h.2).1 Bool.false_ne_true, hpair⟩
          | true =>
              cases c with
              | false => exact ⟨_, rfl, skip fun h => absurd (haccept.2 h.2).2 Bool.false_ne_true, hpair⟩
              | true =>
                  refine ⟨_, rfl, fun u => ?_, List.pairwise_append.2 ⟨hpair, List.pairwise_singleton _ _, ?_⟩⟩
                  · rw [List.mem_append, hmem, List.mem_singleton, Tree.mem_subtrees_node]
                    constructor
                    · rintro (⟨h, h'⟩ | rfl)
                      · exact ⟨Or.inr h, h'⟩
                      · exact ⟨Or.inl rfl, rfl, by simp [hparent], haccept.1 ⟨rfl, rfl⟩⟩
                    · rintro ⟨rfl | h, h'⟩
                      · exact Or.inr rfl
                      · exact Or.inl ⟨h, h'⟩
                  · intro u hu w hw
                    rw [List.mem_singleton.1 hw]
                    exact hbelow u hu

/-- **`clusterPoints` contains exactly the inner nodes below the root of the first tree
whose labels are those of a node in every other tree**, each once and every node before
the nodes above it, and their twins are these nodes. -/
theorem clusterPoints_spec {keys : Forest → List Label} {rest : List Forest} (hI : IsInstance width (F :: rest))
    (hkeys : IsKeys keys (F :: rest)) (hiter : ∀ s m, m ∈ iterate s ↔ m ∈ s) :
    ∃ nodeToTwins points, clusterPoints width keys iterate (F :: rest) = some (nodeToTwins, points) ∧
      (∀ v, v ∈ points ↔ v ∈ F.subtrees ∧ v.isTerminal = false ∧ F.parent v ≠ none ∧
        ∀ G ∈ rest, ∃ w ∈ G.subtrees, w.subtreeTerminals = v.subtreeTerminals) ∧
      points.Nodup ∧ (points.Pairwise fun u w => w ∉ u.subtrees) ∧
      ∀ v ∈ points, (∀ m ∈ nodeToTwins (0, v), 0 < m.1 ∧ m.1 < (F :: rest).length) ∧
        ∀ j G, 0 < j → (F :: rest)[j]? = some G → ∃ w ∈ G.subtrees, w.subtreeTerminals = v.subtreeTerminals ∧
          ∀ w', (j, w') ∈ nodeToTwins (0, v) ↔ w' = w := by
  obtain ⟨nodeToTwins, hrun, hT⟩ := mem_twinRelation hI hkeys
  obtain ⟨root, rfl⟩ := hI.single F (List.mem_cons_self ..)
  have hroot : ∀ {u}, u ∈ Forest.subtrees [root] ↔ u ∈ root.subtrees := fun {u} => by simp [Forest.mem_subtrees]
  have h₀ : ([root] :: rest)[0]? = some [root] := rfl
  obtain ⟨points, hpoints, hmem, hpair⟩ :=
    generateClusterPoints_spec hI hiter hT h₀ (hroot.2 (Tree.mem_subtrees_self _))
  have hcommon : ∀ v, IsCommonCluster ([root] :: rest) v ↔
      ∀ G ∈ rest, ∃ w ∈ G.subtrees, w.subtreeTerminals = v.subtreeTerminals := fun v => by
    constructor
    · intro h G hG
      obtain ⟨j, hj⟩ := List.getElem?_of_mem hG
      exact h (j + 1) G (Nat.succ_ne_zero j) hj
    · rintro h (_ | j) G hj hG
      · exact absurd rfl hj
      · exact h G (List.mem_of_getElem? hG)
  refine ⟨nodeToTwins, points, ?_, fun v => by rw [hmem, hcommon, hroot], ?_, hpair, fun v hv => ⟨fun m hm => ?_, ?_⟩⟩
  · rw [clusterPoints, hrun]
    simp only [Option.bind_eq_bind, Option.bind_some, List.head?_cons, hpoints]
  · exact hpair.imp fun {u w} h (heq : u = w) => h (heq ▸ Tree.mem_subtrees_self u)
  · obtain ⟨hne, F', G, -, hG, -⟩ := (hT _ _).1 hm
    exact ⟨Nat.pos_of_ne_zero (Ne.symm hne), (List.getElem?_eq_some_iff.1 hG).1⟩
  · intro j G hj hG
    obtain ⟨hvroot, -, -, hv⟩ := (hmem v).1 hv
    have hnode : IsNode ([root] :: rest) (0, v) := ⟨_, h₀, hroot.2 hvroot⟩
    obtain ⟨w, hlink⟩ := exists_linked hI hnode (Nat.ne_of_lt hj) (List.getElem?_eq_some_iff.1 hG).1
    obtain ⟨F', G', -, hG', -, htwin⟩ := hlink.2
    obtain rfl := Option.some.inj (hG.symm.trans hG')
    refine ⟨w, htwin.mem, (hv.labels_eq hI h₀ (hroot.2 hvroot) rfl hlink rfl).2, fun w' => ?_⟩
    rw [hT]
    constructor
    · intro hlink'
      obtain ⟨F'', G'', -, hG'', -, htwin'⟩ := hlink'.2
      obtain rfl := Option.some.inj (hG.symm.trans hG'')
      exact htwin'.unique (hI.fits _ (List.mem_of_getElem? hG)).valid.distinct htwin
    · rintro rfl
      exact hlink

/-- The keys of `LabelToTerminal` in the order of the nodes. -/
def labelKeys (F : Forest) : List Label :=
  (F.subtrees.filter Tree.isTerminal).flatMap fun n => n.subtreeTerminals.sort (· ≤ ·)

/-- These keys are the keys of the map. -/
theorem isKeys_labelKeys (forests : List Forest) : IsKeys labelKeys forests := fun F _ x => by
  rw [labelKeys, Forest.labelToTerminal, List.find?_isSome]
  simp [and_assoc]

/-- Two trees over three labels with the common label set `{1, 2}`. -/
theorem clusterPoints_spec_threeLeaves :
    ∃ nodeToTwins points, clusterPoints 1 labelKeys Finset.toList
        [[.node 0 (.node 1 (.leaf 2 1 ∅) (.leaf 3 2 ∅)) (.leaf 4 3 ∅)],
          [.node 0 (.node 1 (.leaf 2 1 ∅) (.leaf 3 2 ∅)) (.leaf 4 3 ∅)]] = some (nodeToTwins, points) ∧
      (∀ v, v ∈ points ↔ v ∈ Forest.subtrees [.node 0 (.node 1 (.leaf 2 1 ∅) (.leaf 3 2 ∅)) (.leaf 4 3 ∅)] ∧
        v.isTerminal = false ∧
        Forest.parent [.node 0 (.node 1 (.leaf 2 1 ∅) (.leaf 3 2 ∅)) (.leaf 4 3 ∅)] v ≠ none ∧
        ∀ G ∈ [[.node 0 (.node 1 (.leaf 2 1 ∅) (.leaf 3 2 ∅)) (.leaf 4 3 ∅)]],
          ∃ w ∈ Forest.subtrees G, w.subtreeTerminals = v.subtreeTerminals) := by
  have hI : IsInstance 1 [[.node 0 (.node 1 (.leaf 2 1 ∅) (.leaf 3 2 ∅)) (.leaf 4 3 ∅)],
      [.node 0 (.node 1 (.leaf 2 1 ∅) (.leaf 3 2 ∅)) (.leaf 4 3 ∅)]] := by
    refine ⟨by decide, fun F hF => ?_, fun F hF => ?_, fun F hF G hG => ?_⟩
    · obtain rfl : F = [.node 0 (.node 1 (.leaf 2 1 ∅) (.leaf 3 2 ∅)) (.leaf 4 3 ∅)] := by simpa using hF
      exact ⟨by decide, by decide⟩
    · exact ⟨.node 0 (.node 1 (.leaf 2 1 ∅) (.leaf 3 2 ∅)) (.leaf 4 3 ∅), by simpa using hF⟩
    · obtain rfl : F = [.node 0 (.node 1 (.leaf 2 1 ∅) (.leaf 3 2 ∅)) (.leaf 4 3 ∅)] := by simpa using hF
      obtain rfl : G = [.node 0 (.node 1 (.leaf 2 1 ∅) (.leaf 3 2 ∅)) (.leaf 4 3 ∅)] := by simpa using hG
      exact fun _ _ => Iff.rfl
  obtain ⟨nodeToTwins, points, hrun, hmem, -⟩ := clusterPoints_spec hI (isKeys_labelKeys _) fun s m =>
    Finset.mem_toList (s := s) (a := m)
  exact ⟨nodeToTwins, points, hrun, hmem⟩

end Points

end Maf.Cluster
