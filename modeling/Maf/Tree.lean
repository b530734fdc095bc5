/-
# Trees, forests and their nodes

`src/Graph/Node.hpp` and `src/Graph/Forest.hpp`.  A `Node` of the source holds
pointers to its parent, sibling and children and the bit set
`subtreeTerminals`; a `Forest` holds its `Roots` and the two maps between
terminals and labels.  Here a tree is an inductive value whose nodes carry the
pointer of the source's node; parent, sibling, terminal sets and the two maps
are read off the value.  A leaf may be a subtree collapsed by
`CollapseSubtreeAction`: `label` is its entry in `TerminalToLabel`, the
smallest label, and `merged` holds the other labels that `LabelToTerminal` maps
to it.

The labels a forest is compared by are those of `TerminalToLabel`.
-/

import Maf.Laminar

namespace Maf

/-- Terminal labels; `0` is not a label. -/
abbrev Label := ℕ

/-- The address of a `Node`. -/
abbrev Ptr := ℕ

/-- A rooted binary tree of `Node`s. -/
inductive Tree where
  | leaf (ptr : Ptr) (label : Label) (merged : Finset Label)
  | node (ptr : Ptr) (leftChild rightChild : Tree)
  deriving DecidableEq

/-- `Forest::Roots`, the trees of a forest from left to right. -/
abbrev Forest := List Tree

namespace Tree

/-- The address of the root node. -/
def ptr : Tree → Ptr
  | leaf p _ _ => p
  | node p _ _ => p

/-- The address of a leaf. -/
@[simp] theorem ptr_leaf (p : Ptr) (l : Label) (m : Finset Label) : (leaf p l m).ptr = p := rfl
/-- The address of a node. -/
@[simp] theorem ptr_node (p : Ptr) (l r : Tree) : (node p l r).ptr = p := rfl

/-- `TerminalToLabel` contains the root node: it is a terminal. -/
def isTerminal : Tree → Bool
  | leaf .. => true
  | node .. => false

/-- A leaf is a terminal. -/
@[simp] theorem isTerminal_leaf (p : Ptr) (l : Label) (m : Finset Label) :
    (leaf p l m).isTerminal = true := rfl
/-- A node is no terminal. -/
@[simp] theorem isTerminal_node (p : Ptr) (l r : Tree) : (node p l r).isTerminal = false := rfl

/-- The labels of the terminals, as `TerminalToLabel` gives them. -/
@[simp] def labels : Tree → Finset Label
  | leaf _ l _ => {l}
  | node _ l r => l.labels ∪ r.labels

/-- `subtreeTerminals`: all labels below the node, those of collapsed subtrees
included. -/
@[simp] def subtreeTerminals : Tree → Finset Label
  | leaf _ l m => insert l m
  | node _ l r => l.subtreeTerminals ∪ r.subtreeTerminals

/-- The label sets below the nodes of the tree. -/
@[simp] def clusters : Tree → Finset (Finset Label)
  | leaf _ l _ => {{l}}
  | node _ l r => insert (l.labels ∪ r.labels) (l.clusters ∪ r.clusters)

/-- The addresses of the nodes. -/
@[simp] def ptrs : Tree → List Ptr
  | leaf p _ _ => [p]
  | node p l r => p :: (l.ptrs ++ r.ptrs)

/-- No label occurs twice. -/
@[simp] def Distinct : Tree → Prop
  | leaf .. => True
  | node _ l r => l.Distinct ∧ r.Distinct ∧ Disjoint l.labels r.labels

instance decidableDistinct : (t : Tree) → Decidable t.Distinct
  | leaf .. => isTrue trivial
  | node _ l r =>
      have := decidableDistinct l
      have := decidableDistinct r
      inferInstanceAs (Decidable (_ ∧ _ ∧ _))

/-- Every tree has a label. -/
theorem labels_nonempty (t : Tree) : t.labels.Nonempty := by
  induction t with
  | leaf p l m => exact ⟨l, by simp⟩
  | node p l r ihl ihr => exact ihl.mono Finset.subset_union_left

/-- All labels are a cluster. -/
theorem labels_mem_clusters (t : Tree) : t.labels ∈ t.clusters := by
  cases t <;> simp

/-- A cluster consists of labels of the tree. -/
theorem subset_labels {t : Tree} {X : Finset Label} (h : X ∈ t.clusters) : X ⊆ t.labels := by
  induction t with
  | leaf p l m => simp_all
  | node p l r ihl ihr =>
      rcases Finset.mem_insert.1 h with rfl | h
      · exact Finset.Subset.refl _
      · rcases Finset.mem_union.1 h with h | h
        · exact (ihl h).trans Finset.subset_union_left
        · exact (ihr h).trans Finset.subset_union_right

/-- No cluster is empty. -/
theorem cluster_nonempty {t : Tree} {X : Finset Label} (h : X ∈ t.clusters) : X.Nonempty := by
  induction t with
  | leaf p l m => simp_all
  | node p l r ihl ihr =>
      rcases Finset.mem_insert.1 h with rfl | h
      · exact l.labels_nonempty.mono Finset.subset_union_left
      · exact (Finset.mem_union.1 h).elim ihl ihr

/-- **The clusters of a tree form a binary hierarchy.** -/
theorem hierarchy {t : Tree} (ht : t.Distinct) : Hierarchy t.labels t.clusters := by
  refine ⟨fun X h => cluster_nonempty h, fun X h => subset_labels h, ?_, ?_, ?_⟩
  · clear ht
    induction t with
    | leaf p l m => simp
    | node p l r ihl ihr =>
        intro x hx
        rcases Finset.mem_union.1 hx with hx | hx
        · simp [ihl x hx]
        · simp [ihr x hx]
  · induction t with
    | leaf p l m => simp
    | node p l r ihl ihr =>
        obtain ⟨hl, hr, hd⟩ := ht
        intro X hX Y hY
        rcases Finset.mem_insert.1 hX with rfl | hX
        · exact Or.inr (Or.inl (subset_labels hY))
        rcases Finset.mem_insert.1 hY with rfl | hY
        · exact Or.inl (subset_labels (t := node p l r) (Finset.mem_insert_of_mem hX))
        rcases Finset.mem_union.1 hX with hX | hX <;> rcases Finset.mem_union.1 hY with hY | hY
        · exact ihl hl X hX Y hY
        · exact Or.inr (Or.inr (hd.mono (subset_labels hX) (subset_labels hY)))
        · exact Or.inr (Or.inr (hd.symm.mono (subset_labels hX) (subset_labels hY)))
        · exact ihr hr X hX Y hY
  · induction t with
    | leaf p l m => simp
    | node p l r ihl ihr =>
        obtain ⟨hl, hr, hd⟩ := ht
        intro X hX hcard
        rcases Finset.mem_insert.1 hX with rfl | hX
        · exact ⟨_, by simp [labels_mem_clusters], _, by simp [labels_mem_clusters], hd, rfl⟩
        · rcases Finset.mem_union.1 hX with hX | hX
          · obtain ⟨Y, hY, Z, hZ, h⟩ := ihl hl X hX hcard
            exact ⟨Y, by simp [hY], Z, by simp [hZ], h⟩
          · obtain ⟨Y, hY, Z, hZ, h⟩ := ihr hr X hX hcard
            exact ⟨Y, by simp [hY], Z, by simp [hZ], h⟩

/-- All subtrees, a node before its left and its left before its right subtree. -/
def subtrees : Tree → List Tree
  | leaf p l m => [leaf p l m]
  | node p l r => node p l r :: (l.subtrees ++ r.subtrees)

/-- A tree is a subtree of itself. -/
theorem mem_subtrees_self (t : Tree) : t ∈ t.subtrees := by cases t <;> simp [subtrees]

/-- The subtrees are listed like the nodes. -/
theorem map_ptr_subtrees (t : Tree) : t.subtrees.map ptr = t.ptrs := by
  induction t with
  | leaf p l m => rfl
  | node p l r ihl ihr => simp [subtrees, ihl, ihr]

/-- The subtrees of a node. -/
theorem mem_subtrees_node {s l r : Tree} {p : Ptr} :
    s ∈ (node p l r).subtrees ↔ s = node p l r ∨ s ∈ l.subtrees ∨ s ∈ r.subtrees := by
  simp [subtrees]

/-- A subtree of a subtree is a subtree. -/
theorem subtrees_trans {s t u : Tree} (hs : s ∈ t.subtrees) (ht : t ∈ u.subtrees) :
    s ∈ u.subtrees := by
  induction u with
  | leaf p l m =>
      rw [subtrees, List.mem_singleton] at ht
      exact ht ▸ hs
  | node p l r ihl ihr =>
      rcases mem_subtrees_node.1 ht with rfl | ht | ht
      · exact hs
      · exact mem_subtrees_node.2 (Or.inr (Or.inl (ihl ht)))
      · exact mem_subtrees_node.2 (Or.inr (Or.inr (ihr ht)))

/-- The children of a subtree are subtrees. -/
theorem mem_subtrees_children {q : Ptr} {l r t : Tree} (h : node q l r ∈ t.subtrees) :
    l ∈ t.subtrees ∧ r ∈ t.subtrees :=
  ⟨subtrees_trans (mem_subtrees_node.2 (Or.inr (Or.inl l.mem_subtrees_self))) h,
    subtrees_trans (mem_subtrees_node.2 (Or.inr (Or.inr r.mem_subtrees_self))) h⟩

/-- A subtree has no more nodes than the tree. -/
theorem length_subtrees_le {s t : Tree} (h : s ∈ t.subtrees) : s.subtrees.length ≤ t.subtrees.length := by
  induction t with
  | leaf p l m => rw [List.mem_singleton.1 h]
  | node p l r ihl ihr =>
      have hlen : (node p l r).subtrees.length = l.subtrees.length + r.subtrees.length + 1 := by simp [subtrees]
      rcases mem_subtrees_node.1 h with rfl | h | h
      · exact le_rfl
      · have := ihl h
        omega
      · have := ihr h
        omega

/-- The labels of a subtree are labels of the tree. -/
theorem labels_subset_of_mem_subtrees {s t : Tree} (h : s ∈ t.subtrees) : s.labels ⊆ t.labels := by
  induction t with
  | leaf p l m => rw [subtrees, List.mem_singleton] at h; rw [h]
  | node p l r ihl ihr =>
      rcases mem_subtrees_node.1 h with rfl | h | h
      · exact Finset.Subset.refl _
      · exact (ihl h).trans Finset.subset_union_left
      · exact (ihr h).trans Finset.subset_union_right

/-- The clusters are the label sets of the subtrees. -/
theorem mem_clusters_iff {t : Tree} {X : Finset Label} :
    X ∈ t.clusters ↔ ∃ s ∈ t.subtrees, s.labels = X := by
  induction t with
  | leaf p l m => simp [subtrees, eq_comm]
  | node p l r ihl ihr =>
      simp only [clusters, Finset.mem_insert, Finset.mem_union, ihl, ihr, mem_subtrees_node]
      constructor
      · rintro (rfl | ⟨s, hs, rfl⟩ | ⟨s, hs, rfl⟩)
        · exact ⟨_, Or.inl rfl, rfl⟩
        · exact ⟨s, Or.inr (Or.inl hs), rfl⟩
        · exact ⟨s, Or.inr (Or.inr hs), rfl⟩
      · rintro ⟨s, rfl | hs | hs, rfl⟩
        · exact Or.inl rfl
        · exact Or.inr (Or.inl ⟨s, hs, rfl⟩)
        · exact Or.inr (Or.inr ⟨s, hs, rfl⟩)

/-- In a subtree no label is there twice either. -/
theorem Distinct.of_mem_subtrees {s t : Tree} (ht : t.Distinct) (h : s ∈ t.subtrees) :
    s.Distinct := by
  induction t with
  | leaf p l m => rw [subtrees, List.mem_singleton] at h; rw [h]; trivial
  | node p l r ihl ihr =>
      rcases mem_subtrees_node.1 h with rfl | h | h
      · exact ht
      · exact ihl ht.1 h
      · exact ihr ht.2.1 h

/-- A proper subtree of a node has fewer labels than the node. -/
theorem not_labels_subset_child {p : Ptr} {l r s : Tree} (h : (node p l r).Distinct)
    (hs : s ∈ l.subtrees ∨ s ∈ r.subtrees) : ¬(node p l r).labels ⊆ s.labels := by
  intro hsub
  rcases hs with hs | hs
  · obtain ⟨x, hx⟩ := r.labels_nonempty
    exact Finset.disjoint_right.1 h.2.2 hx
      (labels_subset_of_mem_subtrees hs (hsub (Finset.mem_union_right _ hx)))
  · obtain ⟨x, hx⟩ := l.labels_nonempty
    exact Finset.disjoint_left.1 h.2.2 hx
      (labels_subset_of_mem_subtrees hs (hsub (Finset.mem_union_left _ hx)))

/-- **A cluster names its subtree**: of two subtrees of a tree, one lies below the
other exactly when its labels do. -/
theorem mem_subtrees_of_subset {t : Tree} (ht : t.Distinct) {s u : Tree} (hs : s ∈ t.subtrees)
    (hu : u ∈ t.subtrees) (h : s.labels ⊆ u.labels) : s ∈ u.subtrees := by
  induction t with
  | leaf p l m =>
      rw [subtrees, List.mem_singleton] at hs hu
      rw [hs, hu]
      exact mem_subtrees_self _
  | node p l r ihl ihr =>
      have clash : ∀ {a b : Tree}, a ∈ l.subtrees → b ∈ r.subtrees → Disjoint a.labels b.labels :=
        fun ha hb => ht.2.2.mono (labels_subset_of_mem_subtrees ha)
          (labels_subset_of_mem_subtrees hb)
      rcases mem_subtrees_node.1 hu with rfl | hu
      · exact hs
      rcases mem_subtrees_node.1 hs with rfl | hs
      · exact absurd h (not_labels_subset_child ht hu)
      obtain ⟨x, hx⟩ := s.labels_nonempty
      rcases hs with hs | hs <;> rcases hu with hu | hu
      · exact ihl ht.1 hs hu
      · exact absurd (h hx) (Finset.disjoint_left.1 (clash hs hu) hx)
      · exact absurd (h hx) (Finset.disjoint_right.1 (clash hu hs) hx)
      · exact ihr ht.2.1 hs hu

/-- Subtrees with the same labels are equal. -/
theorem eq_of_labels_eq {t : Tree} (ht : t.Distinct) {s u : Tree} (hs : s ∈ t.subtrees)
    (hu : u ∈ t.subtrees) (h : s.labels = u.labels) : s = u := by
  have hsu := mem_subtrees_of_subset ht hs hu h.subset
  cases u with
  | leaf p l m => rwa [subtrees, List.mem_singleton] at hsu
  | node p l r =>
      rcases mem_subtrees_node.1 hsu with rfl | hsu
      · rfl
      · exact absurd h.symm.subset (not_labels_subset_child (ht.of_mem_subtrees hu) hsu)

/-- No subtree occurs twice. -/
theorem Distinct.nodup_subtrees {t : Tree} (ht : t.Distinct) : t.subtrees.Nodup := by
  induction t with
  | leaf p l m => exact List.nodup_singleton _
  | node p l r ihl ihr =>
      refine List.nodup_cons.2 ⟨fun h => ?_, List.nodup_append.2 ⟨ihl ht.1, ihr ht.2.1, ?_⟩⟩
      · exact not_labels_subset_child ht (List.mem_append.1 h) (Finset.Subset.refl _)
      · rintro s hs u hu rfl
        obtain ⟨x, hx⟩ := s.labels_nonempty
        exact Finset.disjoint_left.1 ht.2.2 (labels_subset_of_mem_subtrees hs hx)
          (labels_subset_of_mem_subtrees hu hx)

/-- Every label has its leaf. -/
theorem exists_leaf {t : Tree} {x : Label} (h : x ∈ t.labels) : ∃ p m, leaf p x m ∈ t.subtrees := by
  induction t with
  | leaf p l m =>
      rw [labels, Finset.mem_singleton] at h
      exact ⟨p, m, by simp [subtrees, h]⟩
  | node p l r ihl ihr =>
      rcases Finset.mem_union.1 h with h | h
      · obtain ⟨q, m, hq⟩ := ihl h
        exact ⟨q, m, mem_subtrees_node.2 (Or.inr (Or.inl hq))⟩
      · obtain ⟨q, m, hq⟩ := ihr h
        exact ⟨q, m, mem_subtrees_node.2 (Or.inr (Or.inr hq))⟩

/-- A pointer names its subtree. -/
theorem eq_of_ptr_eq {t : Tree} (ht : t.ptrs.Nodup) {s u : Tree} (hs : s ∈ t.subtrees)
    (hu : u ∈ t.subtrees) (h : s.ptr = u.ptr) : s = u := by
  rw [← map_ptr_subtrees] at ht
  exact List.inj_on_of_nodup_map ht hs hu h

end Tree

namespace Forest

/-- The labels of the terminals of a forest. -/
def labels : Forest → Finset Label
  | [] => ∅
  | t :: F => t.labels ∪ labels F

/-- The label sets below the nodes of a forest. -/
def clusters : Forest → Finset (Finset Label)
  | [] => ∅
  | t :: F => t.clusters ∪ clusters F

/-- No label occurs twice in the forest. -/
def Distinct : Forest → Prop
  | [] => True
  | t :: F => t.Distinct ∧ Distinct F ∧ Disjoint t.labels (labels F)

instance decidableDistinct : (F : Forest) → Decidable (Distinct F)
  | [] => isTrue trivial
  | _ :: F =>
      have := decidableDistinct F
      inferInstanceAs (Decidable (_ ∧ _ ∧ _))

/-- An empty forest has no labels. -/
@[simp] theorem labels_nil : labels [] = ∅ := rfl
/-- The labels of one more tree. -/
@[simp] theorem labels_cons (t : Tree) (F : Forest) : labels (t :: F) = t.labels ∪ labels F := rfl
/-- An empty forest has no clusters. -/
@[simp] theorem clusters_nil : clusters [] = ∅ := rfl
/-- The clusters of one more tree. -/
@[simp] theorem clusters_cons (t : Tree) (F : Forest) :
    clusters (t :: F) = t.clusters ∪ clusters F := rfl
/-- An empty forest is distinct. -/
@[simp] theorem distinct_nil : Distinct [] := trivial
/-- One more tree has other labels. -/
@[simp] theorem distinct_cons (t : Tree) (F : Forest) :
    Distinct (t :: F) ↔ t.Distinct ∧ Distinct F ∧ Disjoint t.labels (labels F) := Iff.rfl

/-- The labels of a forest are those of its trees. -/
theorem mem_labels {F : Forest} {x : Label} : x ∈ labels F ↔ ∃ t ∈ F, x ∈ t.labels := by
  induction F with
  | nil => simp
  | cons t F ih => simp [ih]

/-- The clusters of a forest are those of its trees. -/
theorem mem_clusters {F : Forest} {X : Finset Label} :
    X ∈ clusters F ↔ ∃ t ∈ F, X ∈ t.clusters := by
  induction F with
  | nil => simp
  | cons t F ih => simp [ih]

/-- A cluster consists of labels of the forest. -/
theorem subset_labels {F : Forest} {X : Finset Label} (h : X ∈ clusters F) : X ⊆ labels F := by
  obtain ⟨t, ht, hX⟩ := mem_clusters.1 h
  exact fun x hx => mem_labels.2 ⟨t, ht, Tree.subset_labels hX hx⟩

/-- In a tree of a distinct forest no label is there twice. -/
theorem Distinct.of_mem {F : Forest} (h : Distinct F) {t : Tree} (ht : t ∈ F) : t.Distinct := by
  induction F with
  | nil => simp at ht
  | cons s F ih =>
      rcases List.mem_cons.1 ht with rfl | ht
      · exact h.1
      · exact ih h.2.1 ht

/-- **The clusters of a forest form a binary hierarchy.** -/
theorem hierarchy {F : Forest} (hF : Distinct F) : Hierarchy (labels F) (clusters F) := by
  induction F with
  | nil => exact ⟨by simp, by simp, by simp, by simp, by simp⟩
  | cons t F ih =>
      obtain ⟨ht, hF, hd⟩ := hF
      have h₁ := Tree.hierarchy ht
      have h₂ := ih hF
      refine ⟨?_, ?_, ?_, ?_, ?_⟩
      · exact fun X hX => (Finset.mem_union.1 hX).elim (h₁.nonempty X) (h₂.nonempty X)
      · exact fun X hX => subset_labels hX
      · intro x hx
        exact Finset.mem_union.2 ((Finset.mem_union.1 hx).imp (h₁.singleton x) (h₂.singleton x))
      · intro X hX Y hY
        rcases Finset.mem_union.1 hX with hX | hX <;> rcases Finset.mem_union.1 hY with hY | hY
        · exact h₁.nested X hX Y hY
        · exact Or.inr (Or.inr (hd.mono (h₁.subset X hX) (h₂.subset Y hY)))
        · exact Or.inr (Or.inr (hd.symm.mono (h₂.subset X hX) (h₁.subset Y hY)))
        · exact h₂.nested X hX Y hY
      · intro X hX hcard
        rcases Finset.mem_union.1 hX with hX | hX
        · obtain ⟨Y, hY, Z, hZ, h⟩ := h₁.split X hX hcard
          exact ⟨Y, Finset.mem_union_left _ hY, Z, Finset.mem_union_left _ hZ, h⟩
        · obtain ⟨Y, hY, Z, hZ, h⟩ := h₂.split X hX hcard
          exact ⟨Y, Finset.mem_union_right _ hY, Z, Finset.mem_union_right _ hZ, h⟩

/-- All subtrees of the trees. -/
def subtrees (F : Forest) : List Tree := F.flatMap Tree.subtrees

/-- The addresses of all nodes. -/
def ptrs (F : Forest) : List Ptr := F.flatMap Tree.ptrs

/-- The subtrees of a forest are those of its trees. -/
theorem mem_subtrees {F : Forest} {s : Tree} : s ∈ subtrees F ↔ ∃ t ∈ F, s ∈ t.subtrees := by
  simp [subtrees]

/-- The subtrees of a forest are listed like the nodes. -/
theorem map_ptr_subtrees (F : Forest) : (subtrees F).map Tree.ptr = ptrs F := by
  unfold subtrees ptrs
  rw [List.map_flatMap]
  exact List.flatMap_congr fun t _ => t.map_ptr_subtrees

/-- A label lies in one tree. -/
theorem Distinct.eq_of_mem {F : Forest} (h : Distinct F) {t u : Tree} (ht : t ∈ F) (hu : u ∈ F)
    {x : Label} (hx : x ∈ t.labels) (hx' : x ∈ u.labels) : t = u := by
  induction F with
  | nil => cases ht
  | cons v F ih =>
      rcases List.mem_cons.1 ht with rfl | htF <;> rcases List.mem_cons.1 hu with rfl | huF
      · rfl
      · exact absurd (mem_labels.2 ⟨u, huF, hx'⟩) (Finset.disjoint_left.1 h.2.2 hx)
      · exact absurd (mem_labels.2 ⟨t, htF, hx⟩) (Finset.disjoint_left.1 h.2.2 hx')
      · exact ih h.2.1 htF huF

/-- The clusters are the labels of the subtrees. -/
theorem mem_clusters_iff {F : Forest} {X : Finset Label} :
    X ∈ clusters F ↔ ∃ s ∈ subtrees F, s.labels = X := by
  rw [mem_clusters]
  constructor
  · rintro ⟨t, ht, hX⟩
    obtain ⟨s, hs, rfl⟩ := Tree.mem_clusters_iff.1 hX
    exact ⟨s, mem_subtrees.2 ⟨t, ht, hs⟩, rfl⟩
  · rintro ⟨s, hs, rfl⟩
    obtain ⟨t, ht, hs⟩ := mem_subtrees.1 hs
    exact ⟨t, ht, Tree.mem_clusters_iff.2 ⟨s, hs, rfl⟩⟩

/-- The labels of a subtree are a cluster. -/
theorem labels_mem_clusters {F : Forest} {n : Tree} (h : n ∈ subtrees F) : n.labels ∈ clusters F :=
  mem_clusters_iff.2 ⟨n, h, rfl⟩

/-- Of two subtrees of a forest one lies below the other exactly when its labels
do. -/
theorem mem_subtrees_of_subset {F : Forest} (hF : Distinct F) {s u : Tree} (hs : s ∈ subtrees F)
    (hu : u ∈ subtrees F) (h : s.labels ⊆ u.labels) : s ∈ u.subtrees := by
  obtain ⟨t, ht, hs⟩ := mem_subtrees.1 hs
  obtain ⟨t', ht', hu⟩ := mem_subtrees.1 hu
  obtain ⟨x, hx⟩ := s.labels_nonempty
  obtain rfl := hF.eq_of_mem ht ht' (Tree.labels_subset_of_mem_subtrees hs hx)
    (Tree.labels_subset_of_mem_subtrees hu (h hx))
  exact Tree.mem_subtrees_of_subset (hF.of_mem ht) hs hu h

/-- In a subtree of a distinct forest no label is there twice. -/
theorem Distinct.of_mem_subtrees {F : Forest} (hF : Distinct F) {s : Tree} (hs : s ∈ subtrees F) :
    s.Distinct := by
  obtain ⟨t, ht, hs⟩ := mem_subtrees.1 hs
  exact (hF.of_mem ht).of_mem_subtrees hs

/-- A cluster names its subtree. -/
theorem eq_of_labels_eq {F : Forest} (hF : Distinct F) {s u : Tree} (hs : s ∈ subtrees F)
    (hu : u ∈ subtrees F) (h : s.labels = u.labels) : s = u := by
  obtain ⟨t, ht, hs'⟩ := mem_subtrees.1 hs
  obtain ⟨t', ht', hu'⟩ := mem_subtrees.1 hu
  obtain ⟨x, hx⟩ := s.labels_nonempty
  obtain rfl := hF.eq_of_mem ht ht' (Tree.labels_subset_of_mem_subtrees hs' hx)
    (Tree.labels_subset_of_mem_subtrees hu' (h ▸ hx))
  exact Tree.eq_of_labels_eq (hF.of_mem ht) hs' hu' h

/-- A pointer names its subtree. -/
theorem eq_of_ptr_eq {F : Forest} (hF : (ptrs F).Nodup) {s u : Tree} (hs : s ∈ subtrees F)
    (hu : u ∈ subtrees F) (h : s.ptr = u.ptr) : s = u := by
  rw [← map_ptr_subtrees] at hF
  exact List.inj_on_of_nodup_map hF hs hu h

/-- No subtree occurs twice. -/
theorem Distinct.nodup_subtrees {F : Forest} (hF : Distinct F) : (subtrees F).Nodup := by
  induction F with
  | nil => exact List.nodup_nil
  | cons t F ih =>
      obtain ⟨ht, hF, hd⟩ := hF
      refine List.nodup_append.2 ⟨ht.nodup_subtrees, ih hF, ?_⟩
      rintro s hs u hu rfl
      obtain ⟨v, hv, hu⟩ := mem_subtrees.1 hu
      obtain ⟨x, hx⟩ := s.labels_nonempty
      exact Finset.disjoint_left.1 hd (Tree.labels_subset_of_mem_subtrees hs hx)
        (mem_labels.2 ⟨v, hv, Tree.labels_subset_of_mem_subtrees hu hx⟩)

/-- Every label has a leaf. -/
theorem exists_leaf {F : Forest} {x : Label} (h : x ∈ labels F) :
    ∃ p m, Tree.leaf p x m ∈ subtrees F := by
  obtain ⟨t, ht, hx⟩ := mem_labels.1 h
  obtain ⟨p, m, hp⟩ := Tree.exists_leaf hx
  exact ⟨p, m, mem_subtrees.2 ⟨t, ht, hp⟩⟩

/-- The labels of a forest are those of its terminals. -/
theorem mem_labels_iff_leaf {F : Forest} {x : Label} : x ∈ labels F ↔ ∃ q m, Tree.leaf q x m ∈ subtrees F :=
  ⟨exists_leaf, fun ⟨_, _, hq⟩ => subset_labels (labels_mem_clusters hq) (Finset.mem_singleton_self x)⟩

/-- The children of a subtree of the forest are subtrees. -/
theorem mem_subtrees_children {F : Forest} {q : Ptr} {l r : Tree}
    (h : Tree.node q l r ∈ subtrees F) : l ∈ subtrees F ∧ r ∈ subtrees F := by
  obtain ⟨t, ht, h⟩ := mem_subtrees.1 h
  obtain ⟨hl, hr⟩ := Tree.mem_subtrees_children h
  exact ⟨mem_subtrees.2 ⟨t, ht, hl⟩, mem_subtrees.2 ⟨t, ht, hr⟩⟩

/-- Around a child there is the child itself and then its parent. -/
theorem eq_or_subset_of_child {F : Forest} (hF : Distinct F) {q : Ptr} {l r c w : Tree}
    (hq : Tree.node q l r ∈ subtrees F) (hc : c = l ∨ c = r) (hw : w ∈ subtrees F)
    (h : c.labels ⊆ w.labels) : w = c ∨ (Tree.node q l r).labels ⊆ w.labels := by
  have hD := hF.of_mem_subtrees hq
  obtain ⟨hl, hr⟩ := mem_subtrees_children hq
  have hcF : c ∈ subtrees F := hc.elim (fun h => h ▸ hl) fun h => h ▸ hr
  have hcq : c.labels ⊆ (Tree.node q l r).labels := by
    rcases hc with rfl | rfl
    · exact Finset.subset_union_left
    · exact Finset.subset_union_right
  obtain ⟨x, hx⟩ := c.labels_nonempty
  rcases (hierarchy hF).nested_of_mem (mem_clusters_iff.2 ⟨_, hq, rfl⟩)
    (mem_clusters_iff.2 ⟨w, hw, rfl⟩) (hcq hx) (h hx) with hs | hs
  · exact Or.inr hs
  rcases Tree.mem_subtrees_node.1 (mem_subtrees_of_subset hF hw hq hs) with rfl | hwl | hwr
  · exact Or.inr (Finset.Subset.refl _)
  · rcases hc with rfl | rfl
    · exact Or.inl (eq_of_labels_eq hF hw hl ((Tree.labels_subset_of_mem_subtrees hwl).antisymm h))
    · exact absurd hx (Finset.disjoint_left.1 hD.2.2 (Tree.labels_subset_of_mem_subtrees hwl (h hx)))
  · rcases hc with rfl | rfl
    · exact absurd (Tree.labels_subset_of_mem_subtrees hwr (h hx)) (Finset.disjoint_left.1 hD.2.2 hx)
    · exact Or.inl (eq_of_labels_eq hF hw hr ((Tree.labels_subset_of_mem_subtrees hwr).antisymm h))

/-- A subtree is a tree of the forest or the child of a node. -/
theorem root_or_child {F : Forest} {s : Tree} (hs : s ∈ subtrees F) :
    s ∈ F ∨ ∃ q l r, Tree.node q l r ∈ subtrees F ∧ (s = l ∨ s = r) := by
  obtain ⟨t, ht, hs⟩ := mem_subtrees.1 hs
  have key : ∀ u : Tree, s ∈ u.subtrees → s = u ∨
      ∃ q l r, Tree.node q l r ∈ u.subtrees ∧ (s = l ∨ s = r) := by
    intro u hu
    induction u with
    | leaf p l m => exact Or.inl (List.mem_singleton.1 hu)
    | node p l r ihl ihr =>
        rcases Tree.mem_subtrees_node.1 hu with h | h | h
        · exact Or.inl h
        · refine Or.inr ?_
          rcases ihl h with rfl | ⟨q, l', r', hq, hs⟩
          · exact ⟨p, s, r, Tree.mem_subtrees_self _, Or.inl rfl⟩
          · exact ⟨q, l', r', Tree.mem_subtrees_node.2 (Or.inr (Or.inl hq)), hs⟩
        · refine Or.inr ?_
          rcases ihr h with rfl | ⟨q, l', r', hq, hs⟩
          · exact ⟨p, l, s, Tree.mem_subtrees_self _, Or.inr rfl⟩
          · exact ⟨q, l', r', Tree.mem_subtrees_node.2 (Or.inr (Or.inr hq)), hs⟩
  rcases key t hs with rfl | ⟨q, l, r, hq, h⟩
  · exact Or.inl ht
  · exact Or.inr ⟨q, l, r, mem_subtrees.2 ⟨t, ht, hq⟩, h⟩

end Forest

end Maf
