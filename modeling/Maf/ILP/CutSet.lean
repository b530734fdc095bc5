/-
# Forests from cut sets

`IncrementalMAFSolver::reconstructMAF`: the edges of a candidate solution, named by
the numbers of their lower nodes in the uncut forest, are cut one after the other.

`reconstructMAF_spec` says what is left: two labels stay in one tree exactly when
no cut edge lies on the path between them, and inside a tree triples and paths are
those of the uncut forest.
-/

import Maf.Action.DeleteEdgeAction
import Maf.AgreementForest
import Maf.ILP.TreeUtils

namespace Maf

namespace Forest

/-- The labels `x` and `y` lie in one tree. -/
def Joined (F : Forest) (x y : Label) : Prop := ∃ u ∈ F, x ∈ u.labels ∧ y ∈ u.labels

/-- The tree with the label `x`. -/
def treeOf (F : Forest) (x : Label) : Option Tree := F.find? fun u => decide (x ∈ u.labels)

section Joined

variable {F F' : Forest} {child : Tree} {x y z : Label}

/-- Being in one tree is transitive. -/
theorem Joined.trans (hF : F.Distinct) (hxy : F.Joined x y) (hyz : F.Joined y z) : F.Joined x z := by
  obtain ⟨u, hu, hx, hy⟩ := hxy
  obtain ⟨v, hv, hy', hz⟩ := hyz
  exact ⟨u, hu, hx, hF.eq_of_mem hv hu hy' hy ▸ hz⟩

/-- Being in one tree is symmetric. -/
theorem Joined.symm (hxy : F.Joined x y) : F.Joined y x := by
  obtain ⟨u, hu, hx, hy⟩ := hxy
  exact ⟨u, hu, hy, hx⟩

/-- Labels in one tree are labels of the forest. -/
theorem Joined.mem (hxy : F.Joined x y) : x ∈ F.labels ∧ y ∈ F.labels := by
  obtain ⟨u, hu, hx, hy⟩ := hxy
  exact ⟨Forest.mem_labels.2 ⟨u, hu, hx⟩, Forest.mem_labels.2 ⟨u, hu, hy⟩⟩

/-- The tree of a label is found. -/
theorem treeOf_eq_some (hF : F.Distinct) {u : Tree} (hu : u ∈ F) (hx : x ∈ u.labels) :
    F.treeOf x = some u := by
  cases h : F.treeOf x with
  | none => exact absurd (List.find?_eq_none.1 h u hu) (by simpa using hx)
  | some v =>
      have hv : x ∈ v.labels := by simpa using List.find?_some h
      rw [hF.eq_of_mem (List.mem_of_find?_eq_some h) hu hv hx]

/-- Two labels have the same tree exactly when they are joined. -/
theorem treeOf_eq_iff (hF : F.Distinct) (hx : x ∈ F.labels) (hy : y ∈ F.labels) :
    F.treeOf x = F.treeOf y ↔ F.Joined x y := by
  obtain ⟨u, hu, hxu⟩ := mem_labels.1 hx
  obtain ⟨v, hv, hyv⟩ := mem_labels.1 hy
  rw [treeOf_eq_some hF hu hxu, treeOf_eq_some hF hv hyv, Option.some_inj]
  constructor
  · rintro rfl
    exact ⟨u, hu, hxu, hyv⟩
  · rintro ⟨w, hw, hxw, hyw⟩
    rw [hF.eq_of_mem hu hw hxu hxw, hF.eq_of_mem hv hw hyv hyw]

/-- The trees are blocks that fit into their forest. -/
theorem embeds_treeOf (hF : F.Distinct) : Embeds F.labels F.clusters F.treeOf := by
  refine ⟨fun x hx y hy hxy => ?_, fun X hX b b' hb hb' => ?_⟩
  · obtain ⟨u, hu, hxu, hyu⟩ := (treeOf_eq_iff hF hx hy).1 hxy
    exact ⟨u.labels, mem_clusters.2 ⟨u, hu, u.labels_mem_clusters⟩, hxu, hyu⟩
  · obtain ⟨u, hu, hXu⟩ := mem_clusters.1 hX
    have key : ∀ {c}, Used F.labels F.treeOf X c → c = some u := by
      rintro c ⟨x, -, -, -, rfl, -, hxX, -⟩
      exact treeOf_eq_some hF hu (Tree.subset_labels hXu hxX)
    rw [key hb, key hb']

/-- The trees of a forest are the blocks of a labelling. -/
theorem labels_treeOf (hF : F.Distinct) : Labels F.labels F.blocks F.treeOf := by
  intro x hx y hy
  rw [treeOf_eq_iff hF hx hy]
  constructor
  · rintro ⟨u, hu, hxu, hyu⟩
    exact ⟨u.labels, by rw [blocks, List.mem_toFinset]; exact List.mem_map_of_mem hu, hxu, hyu⟩
  · rintro ⟨B, hB, hxB, hyB⟩
    rw [blocks, List.mem_toFinset] at hB
    obtain ⟨u, hu, rfl⟩ := List.mem_map.1 hB
    exact ⟨u, hu, hxB, hyB⟩

/-- The labels of the trees are a partition. -/
theorem isPartition_blocks (hF : F.Distinct) : IsPartition F.labels F.blocks := by
  have hmem : ∀ {B}, B ∈ F.blocks ↔ ∃ u ∈ F, u.labels = B := by simp [blocks]
  refine ⟨fun B hB => ?_, fun x => ?_, fun B hB B' hB' hne => ?_⟩
  · obtain ⟨u, -, rfl⟩ := hmem.1 hB
    exact u.labels_nonempty
  · rw [mem_labels]
    exact ⟨fun ⟨u, hu, hx⟩ => ⟨_, hmem.2 ⟨u, hu, rfl⟩, hx⟩, fun ⟨B, hB, hx⟩ => by
      obtain ⟨u, hu, rfl⟩ := hmem.1 hB
      exact ⟨u, hu, hx⟩⟩
  · obtain ⟨u, hu, rfl⟩ := hmem.1 hB
    obtain ⟨v, hv, rfl⟩ := hmem.1 hB'
    refine Finset.disjoint_left.2 fun x hx hx' => hne ?_
    rw [hF.eq_of_mem hu hv hx hx']

/-- There are as many blocks as trees. -/
theorem card_blocks (hF : F.Distinct) : F.blocks.card = F.length := by
  have hnodup : (F.map Tree.labels).Nodup := by
    induction F with
    | nil => exact List.nodup_nil
    | cons t F ih =>
        obtain ⟨-, hF, hd⟩ := hF
        refine List.nodup_cons.2 ⟨fun hmem => ?_, ih hF⟩
        obtain ⟨u, hu, hut⟩ := List.mem_map.1 hmem
        obtain ⟨x, hx⟩ := u.labels_nonempty
        exact Finset.disjoint_right.1 hd (mem_labels.2 ⟨u, hu, hx⟩) (hut ▸ hx)
  rw [blocks, List.toFinset_card_of_nodup hnodup, List.length_map]

/-- **A cut separates the labels below the edge from the others of the tree.** -/
theorem joined_deleteEdge (hF : F.Valid) (h : F.deleteEdge child = some F') :
    F'.Joined x y ↔ F.Joined x y ∧ ¬Separates child.labels x y := by
  obtain ⟨t, rest, G, hG, hperm, hdet⟩ := perm_deleteEdge hF h
  have ht : t ∈ F := hG.symm.subset (List.mem_cons_self ..)
  have hlab := (Tree.detach_spec (hF.tree t ht) hdet).2.2.1
  have hct := Tree.labels_subset_of_mem_subtrees (Tree.mem_subtrees_of_detach hdet).1
  have hdG : ∀ u ∈ G, Disjoint t.labels u.labels := by
    have hdis := hG.pairwise hF.disjoint (fun h => h.symm)
    exact fun u hu => ((List.pairwise_cons.1 hdis).1 u hu).mono (Tree.labels_subset_subtreeTerminals t)
      (Tree.labels_subset_subtreeTerminals u)
  constructor
  · rintro ⟨u, hu, hx, hy⟩
    rcases List.mem_cons.1 (hperm.subset hu) with rfl | hu
    · rw [hlab, Finset.mem_sdiff] at hx hy
      exact ⟨⟨t, ht, hx.1, hy.1⟩, fun hs => hs ⟨fun h => absurd h hx.2, fun h => absurd h hy.2⟩⟩
    rcases List.mem_cons.1 hu with rfl | hu
    · exact ⟨⟨t, ht, hct hx, hct hy⟩, fun hs => hs ⟨fun _ => hy, fun _ => hx⟩⟩
    · refine ⟨⟨u, hG.symm.subset (List.mem_cons_of_mem _ hu), hx, hy⟩, fun hs => hs ?_⟩
      exact ⟨fun h => absurd hx (Finset.disjoint_left.1 (hdG u hu) (hct h)),
        fun h => absurd hy (Finset.disjoint_left.1 (hdG u hu) (hct h))⟩
  · rintro ⟨⟨u, hu, hx, hy⟩, hs⟩
    unfold Separates at hs
    rw [not_not] at hs
    rcases List.mem_cons.1 (hG.subset hu) with rfl | hu
    · by_cases hxc : x ∈ child.labels
      · exact ⟨child, hperm.symm.subset (by simp), hxc, hs.1 hxc⟩
      · exact ⟨rest, hperm.symm.subset (by simp), hlab ▸ Finset.mem_sdiff.2 ⟨hx, hxc⟩,
          hlab ▸ Finset.mem_sdiff.2 ⟨hy, fun h => hxc (hs.2 h)⟩⟩
    · exact ⟨u, hperm.symm.subset (by simp [hu]), hx, hy⟩

/-- Every node of the cut forest is a node of the forest before, with the labels
that are still in its tree. -/
theorem exists_of_mem_deleteEdge (hF : F.Valid) (h : F.deleteEdge child = some F') {u' s' : Tree}
    (hu' : u' ∈ F') (hs' : s' ∈ u'.subtrees) : ∃ u ∈ F, ∃ s ∈ u.subtrees, u'.labels ⊆ u.labels ∧
      s.ptr = s'.ptr ∧ s'.labels = s.labels ∩ u'.labels := by
  obtain ⟨t, rest, G, hG, hperm, hdet⟩ := perm_deleteEdge hF h
  have ht : t ∈ F := hG.symm.subset (List.mem_cons_self ..)
  have hlab := (Tree.detach_spec (hF.tree t ht) hdet).2.2.1
  have hmem := (Tree.mem_subtrees_of_detach hdet).1
  have self : ∀ {v s : Tree}, s ∈ v.subtrees → s.labels = s.labels ∩ v.labels := fun hs =>
    (Finset.inter_eq_left.2 (Tree.labels_subset_of_mem_subtrees hs)).symm
  rcases List.mem_cons.1 (hperm.subset hu') with rfl | hu'
  · obtain ⟨s, hs, hptr, hsl⟩ := Tree.exists_of_mem_detach (hF.tree t ht) hdet hs'
    refine ⟨t, ht, s, hs, hlab ▸ Finset.sdiff_subset, hptr, ?_⟩
    rw [hlab, ← Finset.inter_sdiff_assoc, ← self hs, hsl]
  rcases List.mem_cons.1 hu' with rfl | hu'
  · exact ⟨t, ht, s', Tree.subtrees_trans hs' hmem, Tree.labels_subset_of_mem_subtrees hmem, rfl, self hs'⟩
  · exact ⟨u', hG.symm.subset (List.mem_cons_of_mem _ hu'), s', hs', Finset.Subset.refl _, rfl, self hs'⟩

end Joined

end Forest

/-- Cutting an edge off two paths leaves them as they are. -/
theorem pathsDisjoint_cutAt {α : Type*} [DecidableEq α] {C : Finset (Finset α)} {X₀ : Finset α} {p q r s : α}
    (hpq : ¬Separates X₀ p q) (hrs : ¬Separates X₀ r s) :
    PathsDisjoint (cutAt X₀ C) p q r s ↔ PathsDisjoint C p q r s := by
  have keep : ∀ {X x y}, ¬Separates X₀ x y → X₀ ⊂ X → (Separates (X \ X₀) x y ↔ Separates X x y) := by
    intro X x y hxy hss
    have hx : x ∈ X₀ → x ∈ X := fun h => hss.1 h
    have hy : y ∈ X₀ → y ∈ X := fun h => hss.1 h
    unfold Separates at hxy ⊢
    simp only [Finset.mem_sdiff]
    tauto
  constructor
  · intro h X hX hsep
    by_cases hss : X₀ ⊂ X
    · exact h _ (mem_cutAt.2 (Or.inl ⟨X, hX, hss, rfl⟩)) ⟨(keep hpq hss).2 hsep.1, (keep hrs hss).2 hsep.2⟩
    · exact h X (mem_cutAt.2 (Or.inr ⟨hX, hss⟩)) hsep
  · intro h X hX hsep
    rcases mem_cutAt.1 hX with ⟨Y, hY, hss, rfl⟩ | ⟨hXC, -⟩
    · exact h Y hY ⟨(keep hpq hss).1 hsep.1, (keep hrs hss).1 hsep.2⟩
    · exact h X hXC hsep

namespace ILP

/-- **`reconstructMAF`**: the nodes are looked up in the uncut forest.  `none` is the
exception for a number without a node or for a node without parent. -/
def reconstructMAF (cutEdges : List ℕ) (forest : Forest) : Option Forest :=
  cutEdges.foldlM (fun F edgeIndex => (indexToNode forest edgeIndex).bind fun p =>
    (F.nodeAt p).bind fun child => F.deleteEdge child) forest

/-- One of the edges `E` lies on the path between two labels. -/
def Cut (T : Forest) (E : List ℕ) (x y : Label) : Prop :=
  ∃ s ∈ T.subtrees, edgeOf T s ∈ E ∧ Separates s.labels x y

/-- **What is left when the edges `E` of `T` are cut.** -/
structure Reconstructed (T : Forest) (E : List ℕ) (F : Forest) : Prop where
  valid : F.Valid
  labels : F.labels = T.labels
  length : F.length = T.length + E.length
  node : ∀ u ∈ F, ∀ s ∈ u.subtrees, ∃ s₀ ∈ T.subtrees, s₀.ptr = s.ptr ∧ s.labels = s₀.labels ∩ u.labels
  joined : ∀ x y, F.Joined x y ↔ T.Joined x y ∧ ¬Cut T E x y
  embeds : ∀ {β : Type} {f : Label → β}, Embeds T.labels F.clusters f → Embeds T.labels T.clusters f
  triple : ∀ x y z, F.Joined x y → F.Joined y z →
    (Triple F.clusters x y z ↔ Triple T.clusters x y z)
  paths : ∀ p q r s, F.Joined p q → F.Joined r s →
    (PathsDisjoint F.clusters p q r s ↔ PathsDisjoint T.clusters p q r s)

/-- Without a cut the tree is left. -/
theorem reconstructed_nil {T : Forest} (hT : T.Valid) : Reconstructed T [] T := by
  refine ⟨hT, rfl, by simp, fun u hu s hs => ?_, fun x y => ?_, id, fun _ _ _ _ _ => Iff.rfl,
    fun _ _ _ _ _ _ => Iff.rfl⟩
  · exact ⟨s, Forest.mem_subtrees.2 ⟨u, hu, hs⟩, rfl,
      (Finset.inter_eq_left.2 (Tree.labels_subset_of_mem_subtrees hs)).symm⟩
  · refine ⟨fun h => ⟨h, ?_⟩, And.left⟩
    rintro ⟨s, -, hs, -⟩
    cases hs

section Reconstruct

variable {T F F' : Forest} {E : List ℕ} {child : Tree} {x y z : Label}

/-- **Of the labels of one tree the cut separates those the edge of the uncut forest
separates.** -/
theorem Reconstructed.separates_iff (h : Reconstructed T E F) {u s₀ : Tree} (hu : u ∈ F)
    (hc : child ∈ u.subtrees) (hne : child ≠ u) (hs₀ : s₀ ∈ T.subtrees)
    (hlab : child.labels = s₀.labels ∩ u.labels) (hxy : F.Joined x y) :
    Separates child.labels x y ↔ Separates s₀.labels x y := by
  obtain ⟨v, hv, hx, hy⟩ := hxy
  by_cases huv : u = v
  · subst huv
    simp [Separates, hlab, hx, hy]
  · -- the edge belongs to the tree `u` and to no other
    have hout : ∀ w ∈ v.labels, w ∉ child.labels := fun w hw hwc => huv
      (h.valid.distinct.eq_of_mem hu hv (Tree.labels_subset_of_mem_subtrees hc hwc) hw)
    have hno : ¬Separates child.labels x y := by simp [Separates, hout x hx, hout y hy]
    refine ⟨fun hs => absurd hs hno, fun hs => ?_⟩
    have he := h.embeds (h.labels ▸ Forest.embeds_treeOf h.valid.distinct)
    have inF : ∀ {w t}, t ∈ F → w ∈ t.labels → w ∈ T.labels := fun ht hw =>
      h.labels ▸ Forest.mem_labels.2 ⟨_, ht, hw⟩
    have tree : ∀ {w t}, t ∈ F → w ∈ t.labels → F.treeOf w = some t := fun ht hw =>
      Forest.treeOf_eq_some h.valid.distinct ht hw
    -- the tree `u` uses the edge: it has labels below and not below the node
    obtain ⟨a, ha⟩ := child.labels_nonempty
    have hau := Tree.labels_subset_of_mem_subtrees hc ha
    have has : a ∈ s₀.labels := (Finset.mem_inter.1 (hlab ▸ ha)).1
    obtain ⟨b, hb, hbs⟩ : ∃ b ∈ u.labels, b ∉ s₀.labels := by
      by_contra hall
      push Not at hall
      have hsame : child.labels = u.labels := by
        rw [hlab]
        exact Finset.inter_eq_right.2 hall
      exact hne (Forest.eq_of_labels_eq h.valid.distinct (Forest.mem_subtrees.2 ⟨u, hu, hc⟩)
        (Forest.mem_subtrees.2 ⟨u, hu, u.mem_subtrees_self⟩) hsame)
    have hused : Used T.labels F.treeOf s₀.labels (some u) :=
      ⟨a, inF hu hau, b, inF hu hb, tree hu hau, tree hu hb, has, hbs⟩
    have hused' : Used T.labels F.treeOf s₀.labels (some v) := by
      rcases Maf.separates_iff.1 hs with ⟨h₁, h₂⟩ | ⟨h₁, h₂⟩
      · exact ⟨x, inF hv hx, y, inF hv hy, tree hv hx, tree hv hy, h₁, h₂⟩
      · exact ⟨y, inF hv hy, x, inF hv hx, tree hv hy, tree hv hx, h₁, h₂⟩
    exact absurd (Option.some.inj (he.disjoint _ (Forest.labels_mem_clusters hs₀) _ _ hused hused')) huv

/-- **One more cut.** -/
theorem Reconstructed.deleteEdge (hT : T.Valid) (h : Reconstructed T E F) {i : ℕ} {p : Ptr}
    (hi : indexToNode T i = some p) (hp : F.nodeAt p = some child) (hd : F.deleteEdge child = some F') :
    Reconstructed T (E ++ [i]) F' := by
  have hchild : child ∈ F.subtrees := List.mem_of_find?_eq_some hp
  have hptr : child.ptr = p := by simpa using List.find?_some hp
  obtain ⟨-, hroot⟩ := Forest.mem_of_deleteEdge h.valid hd
  obtain ⟨u, hu, hcu⟩ := Forest.mem_subtrees.1 hchild
  obtain ⟨s₀, hs₀, hs₀p, hlab⟩ := h.node u hu child hcu
  have hne : child ≠ u := fun he => hroot (he ▸ hu)
  have hedge : edgeOf T s₀ = i := by
    have := (nodeToIndex_eq_some_iff hT.nodup).2 hi
    rw [← hptr, ← hs₀p, nodeToIndex_ptr hs₀] at this
    exact Option.some.inj this
  have hcl := Forest.clusters_deleteEdge h.valid hd
  have hlabels := Forest.labels_deleteEdge h.valid hd
  have hvalid := h.valid.deleteEdge hd
  have hjoin : ∀ {x y}, F'.Joined x y ↔ F.Joined x y ∧ ¬Separates child.labels x y :=
    Forest.joined_deleteEdge h.valid hd
  have hC := Forest.hierarchy h.valid.distinct
  have hcC := Forest.labels_mem_clusters hchild
  have hunused : ∀ b, ¬Used T.labels F'.treeOf child.labels b := by
    have he := Forest.embeds_treeOf hvalid.distinct
    rw [hlabels, hcl, embeds_cutAt_iff hC hcC, h.labels] at he
    exact he.2
  refine ⟨hvalid, hlabels.trans h.labels, ?_, fun u' hu' s' hs' => ?_, fun x y => ?_, fun {β f} he => ?_,
    fun x y z hxy hyz => ?_, fun p q r s hpq hrs => ?_⟩
  · rw [Forest.length_deleteEdge h.valid hd, h.length, List.length_append, List.length_singleton]
    omega
  · obtain ⟨v, hv, s, hs, hsub, hsp, hsl⟩ := Forest.exists_of_mem_deleteEdge h.valid hd hu' hs'
    obtain ⟨t₀, ht₀, htp, htl⟩ := h.node v hv s hs
    refine ⟨t₀, ht₀, htp.trans hsp, ?_⟩
    rw [hsl, htl, Finset.inter_assoc, Finset.inter_eq_right.2 hsub]
  · rw [hjoin]
    constructor
    · rintro ⟨hxy, hsep⟩
      rw [h.separates_iff hu hcu hne hs₀ hlab hxy] at hsep
      obtain ⟨hT', hcut⟩ := (h.joined x y).1 hxy
      refine ⟨hT', ?_⟩
      rintro ⟨s, hs, hsE, hsxy⟩
      rcases List.mem_append.1 hsE with hsE | hsE
      · exact hcut ⟨s, hs, hsE, hsxy⟩
      · rw [List.mem_singleton, ← hedge, edgeOf_inj hT.nodup hs hs₀] at hsE
        exact hsep (hsE ▸ hsxy)
    · rintro ⟨hT', hcut⟩
      have hxy : F.Joined x y := (h.joined x y).2 ⟨hT', fun ⟨s, hs, hsE, hsxy⟩ =>
        hcut ⟨s, hs, List.mem_append_left _ hsE, hsxy⟩⟩
      refine ⟨hxy, fun hsep => hcut ⟨s₀, hs₀, by simp [hedge], ?_⟩⟩
      exact (h.separates_iff hu hcu hne hs₀ hlab hxy).1 hsep
  · rw [hcl, ← h.labels, embeds_cutAt_iff hC hcC, h.labels] at he
    exact h.embeds he.1
  · have hxyF := (hjoin.1 hxy).1
    have hyzF := (hjoin.1 hyz).1
    have mem : ∀ {w w'}, F'.Joined w w' → w ∈ T.labels ∧ w' ∈ T.labels := fun hw => by
      have := hw.mem
      rwa [hlabels, h.labels] at this
    have same : ∀ {w w'}, F'.Joined w w' → F'.treeOf w = F'.treeOf w' := fun hw =>
      (Forest.treeOf_eq_iff hvalid.distinct hw.mem.1 hw.mem.2).2 hw
    rw [hcl, triple_cutAt hunused (mem hxy).1 (mem hxy).2 (mem hyz).2
      ((same hxy).trans (same hyz)) (same hyz)]
    exact h.triple x y z hxyF hyzF
  · rw [hcl, pathsDisjoint_cutAt (hjoin.1 hpq).2 (hjoin.1 hrs).2]
    exact h.paths p q r s (hjoin.1 hpq).1 (hjoin.1 hrs).1

/-- **`reconstructMAF` cuts its edges.** -/
theorem reconstructMAF_spec (hT : T.Valid) (h : reconstructMAF E T = some F) : Reconstructed T E F := by
  have key : ∀ {done G}, Reconstructed T done G → E.foldlM (fun F edgeIndex =>
      (indexToNode T edgeIndex).bind fun p => (F.nodeAt p).bind fun child => F.deleteEdge child) G = some F →
      Reconstructed T (done ++ E) F := by
    clear h
    induction E with
    | nil =>
        intro done G hG h
        obtain rfl := Option.some.inj h
        rwa [List.append_nil]
    | cons i E ih =>
        intro done G hG h
        rw [List.foldlM_cons] at h
        obtain ⟨G', hG', h⟩ := Option.bind_eq_some_iff.1 h
        obtain ⟨p, hi, hG'⟩ := Option.bind_eq_some_iff.1 hG'
        obtain ⟨child, hp, hG'⟩ := Option.bind_eq_some_iff.1 hG'
        have := ih (hG.deleteEdge hT hi hp hG') h
        rwa [List.append_assoc] at this
  exact key (reconstructed_nil hT) h

end Reconstruct

end ILP

end Maf
