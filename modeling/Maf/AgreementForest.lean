/-
# Agreement forests

An agreement forest of an instance is a partition of its labels in which every
block induces the same rooted leaf-labelled topology in every forest and the
subtrees the blocks span are pairwise node-disjoint in every forest.
`AgreementForest` states this with the induced topologies themselves
(`Forest.restrict`, degree-two nodes suppressed and children in a normal order)
and with the node sets of the spanned subtrees; `kStar` is the least number of
blocks.

`IsAgreement` is the same notion in terms of clusters, for a partition given by
a labelling.  `agreementForest_iff` carries results between the two, and
`kStar_le_of_isAgreement` and `exists_isAgreement_card_eq_kStar` say what the
least number of blocks is in terms of labellings.
-/

import Maf.Agreement
import Maf.Tree

namespace Maf

/-- A rooted binary leaf-labelled topology. -/
inductive Shape where
  | tip (label : Label)
  | join (left right : Shape)
  deriving DecidableEq

namespace Shape

/-- The smallest label of a topology. -/
@[simp] def least : Shape → Label
  | tip l => l
  | join a b => min a.least b.least

/-- Two topologies below a new root, the one with the smaller label first. -/
def cherry (a b : Shape) : Shape := if a.least ≤ b.least then join a b else join b a

@[simp] def labels : Shape → Finset Label
  | tip l => {l}
  | join a b => a.labels ∪ b.labels

@[simp] def clusters : Shape → Finset (Finset Label)
  | tip l => {{l}}
  | join a b => insert (a.labels ∪ b.labels) (a.clusters ∪ b.clusters)

/-- Children are ordered by their smallest label and no label occurs twice. -/
@[simp] def Normal : Shape → Prop
  | tip _ => True
  | join a b => a.Normal ∧ b.Normal ∧ Disjoint a.labels b.labels ∧ a.least < b.least

/-- The least label of a shape is one of its labels. -/
theorem least_mem (s : Shape) : s.least ∈ s.labels := by
  induction s with
  | tip l => simp
  | join a b iha ihb =>
      rcases min_choice a.least b.least with h | h
      · simp [h, iha]
      · simp [h, ihb]

/-- The least label of a shape is below the others. -/
theorem least_le {s : Shape} {x : Label} (h : x ∈ s.labels) : s.least ≤ x := by
  induction s with
  | tip l => simp_all
  | join a b iha ihb =>
      rcases Finset.mem_union.1 h with h | h
      · exact (min_le_left _ _).trans (iha h)
      · exact (min_le_right _ _).trans (ihb h)

/-- Putting two shapes together joins their labels. -/
@[simp] theorem labels_cherry (a b : Shape) : (cherry a b).labels = a.labels ∪ b.labels := by
  unfold cherry; split_ifs
  · rfl
  · exact Finset.union_comm _ _

/-- Putting two shapes together adds one cluster. -/
@[simp] theorem clusters_cherry (a b : Shape) :
    (cherry a b).clusters = insert (a.labels ∪ b.labels) (a.clusters ∪ b.clusters) := by
  unfold cherry; split_ifs
  · rfl
  · simp [Finset.union_comm]

/-- Two normal shapes without common labels are put together to a normal one. -/
theorem normal_cherry {a b : Shape} (ha : a.Normal) (hb : b.Normal)
    (hd : Disjoint a.labels b.labels) : (cherry a b).Normal := by
  have hne : a.least ≠ b.least := fun h =>
    Finset.disjoint_left.1 hd a.least_mem (h ▸ b.least_mem)
  unfold cherry; split_ifs with h
  · exact ⟨ha, hb, hd, lt_of_le_of_ne h hne⟩
  · exact ⟨hb, ha, hd.symm, not_le.1 h⟩

/-- All labels are a cluster. -/
theorem labels_mem_clusters (s : Shape) : s.labels ∈ s.clusters := by cases s <;> simp

/-- A cluster consists of labels of the shape. -/
theorem subset_labels {s : Shape} {X : Finset Label} (h : X ∈ s.clusters) : X ⊆ s.labels := by
  induction s with
  | tip l => simp_all
  | join a b iha ihb =>
      rcases Finset.mem_insert.1 h with rfl | h
      · exact Finset.Subset.refl _
      · rcases Finset.mem_union.1 h with h | h
        · exact (iha h).trans Finset.subset_union_left
        · exact (ihb h).trans Finset.subset_union_right

/-- No cluster is empty. -/
theorem cluster_nonempty {s : Shape} {X : Finset Label} (h : X ∈ s.clusters) : X.Nonempty := by
  induction s with
  | tip l => simp_all
  | join a b iha ihb =>
      rcases Finset.mem_insert.1 h with rfl | h
      · exact ⟨a.least, Finset.mem_union_left _ a.least_mem⟩
      · exact (Finset.mem_union.1 h).elim iha ihb

/-- The clusters below a child are the clusters of the topology inside it. -/
theorem clusters_left {a b : Shape} (hd : Disjoint a.labels b.labels) :
    a.clusters = (join a b).clusters.filter (· ⊆ a.labels) := by
  ext X
  rw [Finset.mem_filter]
  refine ⟨fun h => ⟨by simp [h], subset_labels h⟩, ?_⟩
  rintro ⟨hX, hsub⟩
  rcases Finset.mem_insert.1 hX with rfl | hX
  · exact absurd b.least_mem
      (Finset.disjoint_left.1 hd (hsub (Finset.mem_union_right _ b.least_mem)))
  · refine (Finset.mem_union.1 hX).resolve_right fun h => ?_
    obtain ⟨x, hx⟩ := cluster_nonempty h
    exact Finset.disjoint_left.1 hd (hsub hx) (subset_labels h hx)

/-- The clusters of the second part are those inside its labels. -/
theorem clusters_right {a b : Shape} (hd : Disjoint a.labels b.labels) :
    b.clusters = (join a b).clusters.filter (· ⊆ b.labels) := by
  have h := clusters_left (a := b) (b := a) hd.symm
  rwa [show (join b a).clusters = (join a b).clusters by
    simp [Finset.union_comm]] at h

/-- The clusters determine the labels. -/
theorem labels_eq_of_clusters_eq {s s' : Shape} (h : s.clusters = s'.clusters) :
    s.labels = s'.labels :=
  Finset.Subset.antisymm (subset_labels (h ▸ s.labels_mem_clusters))
    (subset_labels (h ▸ s'.labels_mem_clusters))

/-- The first child of a normal topology holds the smallest label. -/
theorem least_join {a b : Shape} (h : (join a b).Normal) : (join a b).least = a.least :=
  min_eq_left h.2.2.2.le

/-- A child of one topology that holds the smallest label lies inside the first
child of any other topology with the same clusters. -/
theorem left_subset {a b a' b' : Shape} (hs : (join a b).Normal) (hs' : (join a' b').Normal)
    (h : (join a b).clusters = (join a' b').clusters) : a.labels ⊆ a'.labels := by
  have hlab := labels_eq_of_clusters_eq h
  have hleast : a.least = a'.least := by
    rw [← least_join hs, ← least_join hs']
    exact le_antisymm (least_le (hlab ▸ least_mem (join a' b')))
      (least_le (hlab ▸ least_mem (join a b)))
  have hmem : a.labels ∈ (join a' b').clusters := by
    rw [← h]; simp [labels_mem_clusters]
  rcases Finset.mem_insert.1 hmem with he | hmem
  · refine absurd b.least_mem (Finset.disjoint_left.1 hs.2.2.1 ?_)
    have hb : b.least ∈ (join a b).labels := Finset.mem_union_right _ b.least_mem
    rw [he]
    rwa [hlab] at hb
  · refine (Finset.mem_union.1 hmem).elim subset_labels fun hb => ?_
    exact absurd (hleast ▸ subset_labels hb a.least_mem)
      (Finset.disjoint_left.1 hs'.2.2.1 a'.least_mem)

/-- **The clusters determine the topology.** -/
theorem eq_of_clusters_eq {s s' : Shape} (hs : s.Normal) (hs' : s'.Normal)
    (h : s.clusters = s'.clusters) : s = s' := by
  have two : ∀ {a b : Shape}, (join a b).Normal → ∀ l, (join a b).labels ≠ {l} := by
    intro a b hab l he
    have ha : a.least ∈ (join a b).labels := Finset.mem_union_left _ a.least_mem
    have hb : b.least ∈ (join a b).labels := Finset.mem_union_right _ b.least_mem
    rw [he, Finset.mem_singleton] at ha hb
    exact absurd (ha.trans hb.symm) hab.2.2.2.ne
  induction s generalizing s' with
  | tip l =>
      cases s' with
      | tip l' => simpa using labels_eq_of_clusters_eq h
      | join a' b' => exact absurd (labels_eq_of_clusters_eq h).symm (two hs' l)
  | join a b iha ihb =>
      cases s' with
      | tip l' => exact absurd (labels_eq_of_clusters_eq h) (two hs l')
      | join a' b' =>
          have hlab : a.labels ∪ b.labels = a'.labels ∪ b'.labels := labels_eq_of_clusters_eq h
          have ha : a.labels = a'.labels :=
            Finset.Subset.antisymm (left_subset hs hs' h) (left_subset hs' hs h.symm)
          have hb : b.labels = b'.labels := by
            rw [← Finset.union_sdiff_cancel_left hs.2.2.1, hlab, ha,
              Finset.union_sdiff_cancel_left hs'.2.2.1]
          rw [iha hs.1 hs'.1, ihb hs.2.1 hs'.2.1]
          · rw [clusters_right hs.2.2.1, clusters_right hs'.2.2.1, h, hb]
          · rw [clusters_left hs.2.2.1, clusters_left hs'.2.2.1, h, ha]

end Shape

namespace Tree

/-- The topology the tree induces on the labels `B`; `none` when it has none of
them.  Nodes left with one child are suppressed. -/
def restrict (B : Finset Label) : Tree → Option Shape
  | leaf _ l _ => if l ∈ B then some (.tip l) else none
  | node _ l r =>
      match l.restrict B, r.restrict B with
      | some a, some b => some (.cherry a b)
      | some a, none => some a
      | none, s => s

/-- What `restrict` returns: nothing exactly when the labels are disjoint, and
otherwise a normal topology on the common labels with the traces of the
clusters. -/
theorem restrict_spec (B : Finset Label) {t : Tree} (ht : t.Distinct) :
    match t.restrict B with
    | none => Disjoint t.labels B
    | some s => s.Normal ∧ s.labels = t.labels ∩ B ∧
        ∀ X, X ∈ s.clusters ↔ X.Nonempty ∧ ∃ Y ∈ t.clusters, Y ∩ B = X := by
  induction t with
  | leaf p l m =>
      unfold restrict
      by_cases h : l ∈ B
      · simp only [h, if_true]
        refine ⟨trivial, by simp [h], fun X => ?_⟩
        simp only [Shape.clusters, clusters, Finset.mem_singleton, exists_eq_left]
        rw [Finset.singleton_inter_of_mem h]
        exact ⟨fun hX => ⟨hX ▸ Finset.singleton_nonempty l, hX.symm⟩, fun hX => hX.2.symm⟩
      · simp [h]
  | node p l r ihl ihr =>
      obtain ⟨hl, hr, hd⟩ := ht
      have ihl := ihl hl
      have ihr := ihr hr
      unfold restrict
      cases hsl : l.restrict B with
      | none =>
          rw [hsl] at ihl
          have hlB : l.labels ∩ B = ∅ := Finset.disjoint_iff_inter_eq_empty.1 ihl
          have hlX : ∀ Y ∈ l.clusters, Y ∩ B = ∅ := fun Y hY =>
            Finset.disjoint_iff_inter_eq_empty.1 (ihl.mono_left (subset_labels hY))
          cases hsr : r.restrict B with
          | none =>
              rw [hsr] at ihr
              exact Finset.disjoint_union_left.2 ⟨ihl, ihr⟩
          | some b =>
              rw [hsr] at ihr
              refine ⟨ihr.1, by simp [Finset.union_inter_distrib_right, hlB, ihr.2.1], fun X => ?_⟩
              rw [ihr.2.2 X]
              refine and_congr_right fun hX => ⟨?_, ?_⟩
              · rintro ⟨Y, hY, rfl⟩
                exact ⟨Y, by simp [hY], rfl⟩
              · rintro ⟨Y, hY, rfl⟩
                rcases Finset.mem_insert.1 hY with rfl | hY
                · exact ⟨r.labels, r.labels_mem_clusters, by
                    simp [Finset.union_inter_distrib_right, hlB]⟩
                · rcases Finset.mem_union.1 hY with hY | hY
                  · rw [hlX Y hY] at hX; simp at hX
                  · exact ⟨Y, hY, rfl⟩
      | some a =>
          rw [hsl] at ihl
          cases hsr : r.restrict B with
          | none =>
              rw [hsr] at ihr
              have hrB : r.labels ∩ B = ∅ := Finset.disjoint_iff_inter_eq_empty.1 ihr
              have hrX : ∀ Y ∈ r.clusters, Y ∩ B = ∅ := fun Y hY =>
                Finset.disjoint_iff_inter_eq_empty.1 (ihr.mono_left (subset_labels hY))
              refine ⟨ihl.1, by simp [Finset.union_inter_distrib_right, hrB, ihl.2.1], fun X => ?_⟩
              rw [ihl.2.2 X]
              refine and_congr_right fun hX => ⟨?_, ?_⟩
              · rintro ⟨Y, hY, rfl⟩
                exact ⟨Y, by simp [hY], rfl⟩
              · rintro ⟨Y, hY, rfl⟩
                rcases Finset.mem_insert.1 hY with rfl | hY
                · exact ⟨l.labels, l.labels_mem_clusters, by
                    simp [Finset.union_inter_distrib_right, hrB]⟩
                · rcases Finset.mem_union.1 hY with hY | hY
                  · exact ⟨Y, hY, rfl⟩
                  · rw [hrX Y hY] at hX; simp at hX
          | some b =>
              rw [hsr] at ihr
              have hdis : Disjoint a.labels b.labels := by
                rw [ihl.2.1, ihr.2.1]
                exact hd.mono Finset.inter_subset_left Finset.inter_subset_left
              refine ⟨Shape.normal_cherry ihl.1 ihr.1 hdis,
                by simp [Finset.union_inter_distrib_right, ihl.2.1, ihr.2.1], fun X => ?_⟩
              rw [Shape.clusters_cherry, Finset.mem_insert, Finset.mem_union, ihl.2.2, ihr.2.2,
                ihl.2.1, ihr.2.1, ← Finset.union_inter_distrib_right]
              constructor
              · rintro (rfl | ⟨hX, Y, hY, rfl⟩ | ⟨hX, Y, hY, rfl⟩)
                · refine ⟨⟨a.least, ?_⟩, _, by simp, rfl⟩
                  have := a.least_mem
                  rw [ihl.2.1] at this
                  exact Finset.inter_subset_inter_right Finset.subset_union_left this
                · exact ⟨hX, Y, by simp [hY], rfl⟩
                · exact ⟨hX, Y, by simp [hY], rfl⟩
              · rintro ⟨hX, Y, hY, rfl⟩
                rcases Finset.mem_insert.1 hY with rfl | hY
                · exact Or.inl rfl
                · rcases Finset.mem_union.1 hY with hY | hY
                  · exact Or.inr (Or.inl ⟨hX, Y, hY, rfl⟩)
                  · exact Or.inr (Or.inr ⟨hX, Y, hY, rfl⟩)

end Tree

namespace Forest

/-- The topologies the trees of the forest induce on the labels `B`. -/
def restrict (F : Forest) (B : Finset Label) : List Shape := F.filterMap (Tree.restrict B)

/-- A forest induces the single topology `s` on `B` exactly when `s` has the
traces of the clusters of the forest as its clusters. -/
theorem restrict_eq_singleton_iff {F : Forest} (hF : Distinct F) {B : Finset Label}
    {s : Shape} :
    F.restrict B = [s] ∧ B ⊆ labels F ↔ s.Normal ∧ s.labels = B ∧
      ∀ X, X ∈ s.clusters ↔ X.Nonempty ∧ ∃ Y ∈ clusters F, Y ∩ B = X := by
  induction F with
  | nil =>
      simp only [restrict, List.filterMap_nil, List.nil_eq, reduceCtorEq, false_and, false_iff,
        clusters_nil]
      rintro ⟨-, -, h⟩
      simpa using (h _).1 s.labels_mem_clusters
  | cons t F ih =>
      obtain ⟨ht, hF, hd⟩ := hF
      have hrest : restrict (t :: F) B = (t.restrict B).toList ++ restrict F B := by
        unfold restrict
        rw [List.filterMap_cons]
        cases t.restrict B <;> rfl
      have hspec := Tree.restrict_spec B ht
      rw [hrest]
      cases hs : t.restrict B with
      | none =>
          rw [hs] at hspec
          have hempty : ∀ Y ∈ t.clusters, Y ∩ B = ∅ := fun Y hY =>
            Finset.disjoint_iff_inter_eq_empty.1 (hspec.mono_left (Tree.subset_labels hY))
          have hsub : B ⊆ labels (t :: F) ↔ B ⊆ labels F := by
            refine ⟨fun h x hx => (Finset.mem_union.1 (h hx)).resolve_left fun hx' =>
              Finset.disjoint_left.1 hspec hx' hx, fun h => h.trans Finset.subset_union_right⟩
          rw [Option.toList_none, List.nil_append, hsub, ih hF]
          refine and_congr_right fun _ => and_congr_right fun _ => forall_congr' fun X =>
            iff_congr Iff.rfl (and_congr_right fun hX => ?_)
          simp only [clusters_cons, Finset.mem_union]
          constructor
          · rintro ⟨Y, hY, rfl⟩
            exact ⟨Y, Or.inr hY, rfl⟩
          · rintro ⟨Y, hY | hY, rfl⟩
            · rw [hempty Y hY] at hX; simp at hX
            · exact ⟨Y, hY, rfl⟩
      | some a =>
          rw [hs] at hspec
          obtain ⟨hn, hlab, hcl⟩ := hspec
          constructor
          · rintro ⟨he, hBF⟩
            rw [Option.toList_some, List.singleton_append, List.cons.injEq] at he
            obtain ⟨rfl, hnone⟩ := he
            have hnil : ∀ u ∈ F, Disjoint u.labels B := by
              intro u hu
              have hu' := Tree.restrict_spec B (hF.of_mem hu)
              rw [List.filterMap_eq_nil_iff.1 hnone u hu] at hu'
              exact hu'
            have hBt : B ⊆ t.labels := fun x hx =>
              (Finset.mem_union.1 (hBF hx)).resolve_right fun hx' => by
                obtain ⟨u, hu, hxu⟩ := mem_labels.1 hx'
                exact Finset.disjoint_left.1 (hnil u hu) hxu hx
            refine ⟨hn, by rw [hlab, Finset.inter_eq_right.2 hBt], fun X => ?_⟩
            rw [hcl]
            refine and_congr_right fun hX => ⟨?_, ?_⟩
            · rintro ⟨Y, hY, rfl⟩
              exact ⟨Y, by simp [hY], rfl⟩
            · rintro ⟨Y, hY, rfl⟩
              rcases Finset.mem_union.1 hY with hY | hY
              · exact ⟨Y, hY, rfl⟩
              · obtain ⟨u, hu, hYu⟩ := mem_clusters.1 hY
                rw [Finset.disjoint_iff_inter_eq_empty.1
                  ((hnil u hu).mono_left (Tree.subset_labels hYu))] at hX
                simp at hX
          · rintro ⟨hsn, hsl, hsc⟩
            obtain ⟨-, Y, hY, hYB⟩ := (hsc B).1 (hsl ▸ s.labels_mem_clusters)
            -- the tree that holds `B` is the one that meets it
            have hYt : Y ∈ t.clusters := by
              refine (Finset.mem_union.1 hY).resolve_right fun hYF => ?_
              have hal := a.least_mem
              rw [hlab, Finset.mem_inter] at hal
              exact Finset.disjoint_left.1 hd hal.1
                (subset_labels hYF (Finset.inter_eq_right.1 hYB hal.2))
            have hBt : B ⊆ t.labels := (Finset.inter_eq_right.1 hYB).trans (Tree.subset_labels hYt)
            have hnone : restrict F B = [] := by
              refine List.filterMap_eq_nil_iff.2 fun u hu => ?_
              have hu' := Tree.restrict_spec B (hF.of_mem hu)
              have huB : Disjoint u.labels B := by
                refine Finset.disjoint_left.2 fun x hx hxB => ?_
                exact Finset.disjoint_left.1 hd (hBt hxB) (mem_labels.2 ⟨u, hu, hx⟩)
              cases hres : u.restrict B with
              | none => rfl
              | some b =>
                  rw [hres] at hu'
                  have hb := b.least_mem
                  rw [hu'.2.1, Finset.mem_inter] at hb
                  exact absurd hb.2 (Finset.disjoint_left.1 huB hb.1)
            refine ⟨?_, hBt.trans Finset.subset_union_left⟩
            rw [hnone, List.append_nil, Option.toList_some, List.singleton_inj]
            refine Shape.eq_of_clusters_eq hn hsn (Finset.ext fun X => ?_)
            rw [hcl, hsc]
            refine and_congr_right fun hX => ⟨?_, ?_⟩
            · rintro ⟨Z, hZ, rfl⟩
              exact ⟨Z, by simp [hZ], rfl⟩
            · rintro ⟨Z, hZ, rfl⟩
              rcases Finset.mem_union.1 hZ with hZ | hZ
              · exact ⟨Z, hZ, rfl⟩
              · obtain ⟨x, hx⟩ := hX
                rw [Finset.mem_inter] at hx
                exact absurd (subset_labels hZ hx.1) (Finset.disjoint_left.1 hd (hBt hx.2))

/-- Some topology is the one a forest induces on the labels of one of its trees. -/
theorem exists_restrict_eq {F : Forest} (hF : Distinct F) {B : Finset Label} (hne : B.Nonempty)
    (hB : ∃ X ∈ clusters F, B ⊆ X) : ∃ s, F.restrict B = [s] := by
  obtain ⟨X, hX, hBX⟩ := hB
  induction F with
  | nil => simp at hX
  | cons t F ih =>
      obtain ⟨ht, hF, hd⟩ := hF
      have hspec := Tree.restrict_spec B ht
      unfold restrict at ih ⊢
      rw [List.filterMap_cons]
      rcases Finset.mem_union.1 hX with hX | hX
      · have hBt : B ⊆ t.labels := hBX.trans (Tree.subset_labels hX)
        have hnil : F.filterMap (Tree.restrict B) = [] := by
          refine List.filterMap_eq_nil_iff.2 fun u hu => ?_
          have hu' := Tree.restrict_spec B (hF.of_mem hu)
          cases hres : u.restrict B with
          | none => rfl
          | some b =>
              rw [hres] at hu'
              have hb := b.least_mem
              rw [hu'.2.1, Finset.mem_inter] at hb
              exact absurd (mem_labels.2 ⟨u, hu, hb.1⟩) (Finset.disjoint_left.1 hd (hBt hb.2))
        cases hs : t.restrict B with
        | none =>
            rw [hs] at hspec
            obtain ⟨x, hx⟩ := hne
            exact absurd hx (Finset.disjoint_left.1 hspec (hBt hx))
        | some a => exact ⟨a, by simp [hnil]⟩
      · have hBF : B ⊆ labels F := hBX.trans (subset_labels hX)
        cases hs : t.restrict B with
        | none => exact ih hF hX
        | some a =>
            rw [hs] at hspec
            have ha := a.least_mem
            rw [hspec.2.1, Finset.mem_inter] at ha
            exact absurd (hBF ha.2) (Finset.disjoint_left.1 hd ha.1)

/-- The nodes of the least subtree spanning `B`. -/
def span (F : Forest) (B : Finset Label) : Finset (Finset Label) := Maf.span (clusters F) B

end Forest

/-- The blocks of `P` partition the label set `S`. -/
structure IsPartition (S : Finset Label) (P : Finset (Finset Label)) : Prop where
  nonempty : ∀ B ∈ P, B.Nonempty
  cover : ∀ x, x ∈ S ↔ ∃ B ∈ P, x ∈ B
  disjoint : ∀ B ∈ P, ∀ B' ∈ P, B ≠ B' → Disjoint B B'

/-- `graph::Instance`: the forests of the problem. -/
abbrev Instance := List Forest

/-- **An agreement forest of an instance**: a partition of the labels whose
blocks induce one and the same topology in every forest and span pairwise
node-disjoint subtrees in every forest. -/
structure AgreementForest (I : Instance) (P : Finset (Finset Label)) : Prop where
  partition : ∀ F ∈ I, IsPartition (Forest.labels F) P
  topology : ∀ B ∈ P, ∃ s, ∀ F ∈ I, Forest.restrict F B = [s]
  disjoint : ∀ B ∈ P, ∀ B' ∈ P, B ≠ B' → ∀ F ∈ I, Disjoint (Forest.span F B) (Forest.span F B')

/-- `k*`: the least number of blocks of an agreement forest. -/
noncomputable def kStar (I : Instance) : ℕ :=
  sInf {n | ∃ P, AgreementForest I P ∧ P.card = n}

namespace Forest

/-- **Two forests induce the same topology on a block when they have the same
triples there.** -/
theorem restrict_eq_of_triple {F G : Forest} (hF : Distinct F) (hG : Distinct G)
    {B : Finset Label} (hB : ∃ Y ∈ clusters G, B ⊆ Y) {s : Shape}
    (hs : F.restrict B = [s]) (hBF : B ⊆ labels F)
    (h : ∀ x ∈ B, ∀ y ∈ B, ∀ z ∈ B, Triple (clusters F) x y z ↔ Triple (clusters G) x y z) :
    G.restrict B = [s] := by
  obtain ⟨hn, hlab, hcl⟩ := (restrict_eq_singleton_iff hF).1 ⟨hs, hBF⟩
  obtain ⟨Y, hY, hBY⟩ := hB
  have hBG : B ⊆ labels G := hBY.trans (subset_labels hY)
  have hne : B.Nonempty := ⟨s.least, hlab ▸ s.least_mem⟩
  have hC : ∀ X, X ∈ s.clusters ↔ X ∈ trace (clusters F) B := fun X => by rw [hcl, mem_trace]
  have top : ∀ {H : Forest}, (∃ Y ∈ clusters H, B ⊆ Y) → B ∈ trace (clusters H) B := by
    rintro H ⟨Y, hY, hBY⟩
    exact mem_trace.2 ⟨hne, Y, hY, Finset.inter_eq_right.2 hBY⟩
  have htopF : B ∈ trace (clusters F) B := (hC B).1 (hlab ▸ s.labels_mem_clusters)
  have htr : ∀ x ∈ B, ∀ y ∈ B, ∀ z ∈ B,
      Triple (trace (clusters F) B) x y z ↔ Triple (trace (clusters G) B) x y z := by
    intro x hx y hy z hz
    rw [triple_trace hx hy hz, triple_trace hx hy hz]
    exact h x hx y hy z hz
  have heq : trace (clusters F) B = trace (clusters G) B :=
    Finset.Subset.antisymm
      (((hierarchy hF).trace hBF).subset_of_triple ((hierarchy hG).trace hBG) (top ⟨Y, hY, hBY⟩)
        fun x hx y hy z hz => (htr x hx y hy z hz).1)
      (((hierarchy hG).trace hBG).subset_of_triple ((hierarchy hF).trace hBF) htopF
        fun x hx y hy z hz => (htr x hx y hy z hz).2)
  refine ((restrict_eq_singleton_iff hG).2 ⟨hn, hlab, fun X => ?_⟩).1
  rw [hC, heq, mem_trace]

end Forest

variable {I : Instance} {S : Finset Label} {P : Finset (Finset Label)}

/-- An instance over the label set `S`: every forest has exactly these labels,
each once. -/
structure Instance.Over (I : Instance) (S : Finset Label) : Prop where
  nonempty : I ≠ []
  distinct : ∀ F ∈ I, Forest.Distinct F
  labels : ∀ F ∈ I, Forest.labels F = S

/-- The clusters of the forests. -/
def Instance.clusters (I : Instance) : List (Finset (Finset Label)) := I.map Forest.clusters

/-- The hierarchies of an instance are the clusters of its forests. -/
theorem Instance.mem_clusters {C : Finset (Finset Label)} :
    C ∈ I.clusters ↔ ∃ F ∈ I, Forest.clusters F = C := by
  simp [Instance.clusters]

/-- The labelling `f` has the blocks `P`. -/
def Labels {β : Type*} (S : Finset Label) (P : Finset (Finset Label)) (f : Label → β) : Prop :=
  ∀ x ∈ S, ∀ y ∈ S, f x = f y ↔ ∃ B ∈ P, x ∈ B ∧ y ∈ B

/-- **An agreement forest is a partition whose labelling agrees.** -/
theorem agreementForest_iff {β : Type*} (hI : I.Over S) {f : Label → β} (hf : Labels S P f) :
    AgreementForest I P ↔ IsPartition S P ∧ IsAgreement S I.clusters f := by
  constructor
  · rintro ⟨hpart, htop, hdis⟩
    obtain ⟨F₀, hF₀⟩ := List.exists_mem_of_ne_nil I hI.nonempty
    have hP : IsPartition S P := hI.labels F₀ hF₀ ▸ hpart F₀ hF₀
    have hsub : ∀ B ∈ P, B ⊆ S := fun B hB x hx => (hP.cover x).2 ⟨B, hB, hx⟩
    have spec : ∀ B ∈ P, ∃ s : Shape, s.labels = B ∧ ∀ F ∈ I, ∀ X, X ∈ s.clusters ↔
        X.Nonempty ∧ ∃ Y ∈ Forest.clusters F, Y ∩ B = X := by
      intro B hB
      obtain ⟨s, hs⟩ := htop B hB
      have h := fun F hF => (Forest.restrict_eq_singleton_iff (hI.distinct F hF)).1
        ⟨hs F hF, (hsub B hB).trans (hI.labels F hF).symm.subset⟩
      exact ⟨s, (h F₀ hF₀).2.1, fun F hF => (h F hF).2.2⟩
    refine ⟨hP, ?_, ?_⟩
    · rintro C hC
      obtain ⟨F, hF, rfl⟩ := Instance.mem_clusters.1 hC
      refine ⟨fun x hx y hy hxy => ?_, ?_⟩
      · obtain ⟨B, hB, hxB, hyB⟩ := (hf x hx y hy).1 hxy
        obtain ⟨s, hs, hcl⟩ := spec B hB
        obtain ⟨-, Y, hY, hYB⟩ := (hcl F hF B).1 (hs ▸ s.labels_mem_clusters)
        exact ⟨Y, hY, Finset.inter_eq_right.1 hYB hxB, Finset.inter_eq_right.1 hYB hyB⟩
      · rintro X hX b b' ⟨x, hx, y, hy, rfl, hxy, hxX, hyX⟩ ⟨x', hx', y', hy', rfl, hxy', hxX', hyX'⟩
        obtain ⟨B, hB, hxB, hyB⟩ := (hf x hx y hy).1 hxy.symm
        obtain ⟨B', hB', hxB', hyB'⟩ := (hf x' hx' y' hy').1 hxy'.symm
        by_cases hBB : B = B'
        · exact (hf x hx x' hx').2 ⟨B, hB, hxB, hBB ▸ hxB'⟩
        · refine absurd (hdis B hB B' hB' hBB F hF) ?_
          rw [Forest.span, Forest.span, span_disjoint_iff (Forest.hierarchy (hI.distinct F hF))
            (hP.disjoint B hB B' hB' hBB)]
          exact fun h => h X hX ⟨⟨⟨x, hxB, hxX⟩, y, hyB, hyX⟩, ⟨x', hxB', hxX'⟩, y', hyB', hyX'⟩
    · rintro C hC D hD x hx y hy z hz hxy hyz ⟨X, hX, hxX, hyX, hzX⟩
      obtain ⟨F, hF, rfl⟩ := Instance.mem_clusters.1 hC
      obtain ⟨G, hG, rfl⟩ := Instance.mem_clusters.1 hD
      obtain ⟨B, hB, hxB, hyB⟩ := (hf x hx y hy).1 hxy
      obtain ⟨B', hB', hyB', hzB⟩ := (hf y hy z hz).1 hyz
      have hBB : B' = B := by
        by_contra hne
        exact Finset.disjoint_left.1 (hP.disjoint B' hB' B hB hne) hyB' hyB
      subst hBB
      obtain ⟨s, -, hcl⟩ := spec B' hB
      have hXB : X ∩ B' ∈ s.clusters :=
        (hcl F hF _).2 ⟨⟨x, Finset.mem_inter.2 ⟨hxX, hxB⟩⟩, X, hX, rfl⟩
      obtain ⟨-, Y, hY, hYB⟩ := (hcl G hG _).1 hXB
      have mem : ∀ w ∈ B', w ∈ Y ↔ w ∈ X := fun w hw => by
        have := congrArg (w ∈ ·) hYB
        simpa [hw] using this
      exact ⟨Y, hY, (mem x hxB).2 hxX, (mem y hyB).2 hyX, fun h => hzX ((mem z hzB).1 h)⟩
  · rintro ⟨hP, hA⟩
    have hsub : ∀ B ∈ P, B ⊆ S := fun B hB x hx => (hP.cover x).2 ⟨B, hB, hx⟩
    have hfB : ∀ B ∈ P, ∀ x ∈ B, ∀ y ∈ B, f x = f y := fun B hB x hx y hy =>
      (hf x (hsub B hB hx) y (hsub B hB hy)).2 ⟨B, hB, hx, hy⟩
    have hcluster : ∀ B ∈ P, ∀ F ∈ I, ∃ X ∈ Forest.clusters F, B ⊆ X := fun B hB F hF =>
      (hA.embeds _ (Instance.mem_clusters.2 ⟨F, hF, rfl⟩)).exists_subset
        (hI.labels F hF ▸ Forest.hierarchy (hI.distinct F hF)) (hsub B hB) (hfB B hB)
        (hP.nonempty B hB)
    refine ⟨fun F hF => (hI.labels F hF).symm ▸ hP, fun B hB => ?_, ?_⟩
    · obtain ⟨F₀, hF₀⟩ := List.exists_mem_of_ne_nil I hI.nonempty
      obtain ⟨s, hs⟩ := Forest.exists_restrict_eq (hI.distinct F₀ hF₀) (hP.nonempty B hB)
        (hcluster B hB F₀ hF₀)
      refine ⟨s, fun F hF => ?_⟩
      have agree : ∀ G ∈ I, ∀ H ∈ I, ∀ x ∈ B, ∀ y ∈ B, ∀ z ∈ B,
          Triple (Forest.clusters G) x y z → Triple (Forest.clusters H) x y z :=
        fun G hG H hH x hx y hy z hz => hA.agree _ (Instance.mem_clusters.2 ⟨G, hG, rfl⟩) _
          (Instance.mem_clusters.2 ⟨H, hH, rfl⟩) x (hsub B hB hx) y (hsub B hB hy) z
          (hsub B hB hz) (hfB B hB x hx y hy) (hfB B hB y hy z hz)
      exact Forest.restrict_eq_of_triple (hI.distinct F₀ hF₀) (hI.distinct F hF)
        (hcluster B hB F hF) hs ((hsub B hB).trans (hI.labels F₀ hF₀).symm.subset)
        fun x hx y hy z hz => ⟨agree F₀ hF₀ F hF x hx y hy z hz, agree F hF F₀ hF₀ x hx y hy z hz⟩
    · intro B hB B' hB' hne F hF
      rw [Forest.span, Forest.span, span_disjoint_iff (Forest.hierarchy (hI.distinct F hF))
        (hP.disjoint B hB B' hB' hne)]
      rintro X hX ⟨⟨⟨x, hx, hxX⟩, y, hy, hyX⟩, ⟨x', hx', hxX'⟩, y', hy', hyX'⟩
      have heq : f x = f x' := (hA.embeds _ (Instance.mem_clusters.2 ⟨F, hF, rfl⟩)).disjoint X hX _ _
        ⟨x, hsub B hB hx, y, hsub B hB hy, rfl, hfB B hB y hy x hx, hxX, hyX⟩
        ⟨x', hsub B' hB' hx', y', hsub B' hB' hy', rfl, hfB B' hB' y' hy' x' hx', hxX', hyX'⟩
      obtain ⟨B'', hB'', hxB, hxB'⟩ := (hf x (hsub B hB hx) x' (hsub B' hB' hx')).1 heq
      have same : ∀ A ∈ P, ∀ w, w ∈ A → w ∈ B'' → A = B'' := fun A hA w hw hw' => by
        by_contra hAB
        exact Finset.disjoint_left.1 (hP.disjoint A hA B'' hB'' hAB) hw hw'
      exact hne ((same B hB x hx hxB).trans (same B' hB' x' hx' hxB').symm)

/-- The blocks of a labelling. -/
def blocks {β : Type*} [DecidableEq β] (S : Finset Label) (f : Label → β) :
    Finset (Finset Label) :=
  S.image fun x => S.filter (f · = f x)

/-- A block consists of the labels with one value. -/
theorem mem_blocks {β : Type*} [DecidableEq β] {f : Label → β} {B : Finset Label} :
    B ∈ blocks S f ↔ ∃ x ∈ S, S.filter (f · = f x) = B := by
  simp [blocks]

/-- The values label the blocks. -/
theorem labels_blocks {β : Type*} [DecidableEq β] (f : Label → β) : Labels S (blocks S f) f := by
  intro x hx y hy
  constructor
  · intro h
    exact ⟨_, mem_blocks.2 ⟨y, hy, rfl⟩, by simp [hx, h], by simp [hy]⟩
  · rintro ⟨B, hB, hxB, hyB⟩
    obtain ⟨w, -, rfl⟩ := mem_blocks.1 hB
    rw [(Finset.mem_filter.1 hxB).2, (Finset.mem_filter.1 hyB).2]

/-- The blocks are a partition. -/
theorem isPartition_blocks {β : Type*} [DecidableEq β] (f : Label → β) :
    IsPartition S (blocks S f) := by
  refine ⟨?_, fun x => ⟨fun hx => ⟨_, mem_blocks.2 ⟨x, hx, rfl⟩, by simp [hx]⟩, ?_⟩, ?_⟩
  · intro B hB
    obtain ⟨x, hx, rfl⟩ := mem_blocks.1 hB
    exact ⟨x, by simp [hx]⟩
  · rintro ⟨B, hB, hxB⟩
    obtain ⟨w, -, rfl⟩ := mem_blocks.1 hB
    exact (Finset.mem_filter.1 hxB).1
  · intro B hB B' hB' hne
    obtain ⟨x, -, rfl⟩ := mem_blocks.1 hB
    obtain ⟨y, -, rfl⟩ := mem_blocks.1 hB'
    refine Finset.disjoint_left.2 fun w hw hw' => hne ?_
    rw [← (Finset.mem_filter.1 hw).2, ← (Finset.mem_filter.1 hw').2]

/-- There are as many blocks as values. -/
theorem card_blocks {β : Type*} [DecidableEq β] (f : Label → β) :
    (blocks S f).card = (S.image f).card := by
  have h : blocks S f = (S.image f).image fun b => S.filter (f · = b) := by
    rw [blocks, Finset.image_image]; rfl
  rw [h, Finset.card_image_of_injOn]
  intro b hb b' hb' heq
  obtain ⟨x, hx, rfl⟩ := Finset.mem_image.1 hb
  have heq' : S.filter (f · = f x) = S.filter (f · = b') := heq
  have hmem : x ∈ S.filter (f · = b') := heq' ▸ by simp [hx]
  exact (Finset.mem_filter.1 hmem).2

/-- Every partition is the partition of a labelling. -/
theorem IsPartition.exists_labels (hP : IsPartition S P) :
    ∃ f : Label → Finset (Finset Label), Labels S P f ∧ (S.image f).card = P.card := by
  have hlab : Labels S P fun x => P.filter (x ∈ ·) := by
    intro x hx y hy
    obtain ⟨B, hB, hxB⟩ := (hP.cover x).1 hx
    constructor
    · intro h
      have h' : P.filter (x ∈ ·) = P.filter (y ∈ ·) := h
      have hmem : B ∈ P.filter (y ∈ ·) := h' ▸ by simp [hB, hxB]
      exact ⟨B, hB, hxB, (Finset.mem_filter.1 hmem).2⟩
    · rintro ⟨B, hB, hxB, hyB⟩
      have only : ∀ B' ∈ P, ∀ w, w ∈ B → w ∈ B' → B' = B := fun B' hB' w hw hw' => by
        by_contra hne
        exact Finset.disjoint_left.1 (hP.disjoint B' hB' B hB hne) hw' hw
      ext B'
      simp only [Finset.mem_filter]
      refine and_congr_right fun hB' => ⟨fun h => ?_, fun h => ?_⟩
      · exact only B' hB' x hxB h ▸ hyB
      · exact only B' hB' y hyB h ▸ hxB
  refine ⟨_, hlab, ?_⟩
  -- the blocks of the labelling are those of `P`
  rw [← card_blocks, show blocks S (fun x => P.filter (x ∈ ·)) = P from ?_]
  have filter_eq : ∀ B ∈ P, ∀ x ∈ B, S.filter (fun w => P.filter (w ∈ ·) = P.filter (x ∈ ·)) = B := by
    intro B hB x hx
    have hxS : x ∈ S := (hP.cover x).2 ⟨B, hB, hx⟩
    ext w
    rw [Finset.mem_filter]
    constructor
    · rintro ⟨hw, heq⟩
      obtain ⟨B', hB', hwB', hxB'⟩ := (hlab w hw x hxS).1 heq
      by_cases hBB : B' = B
      · exact hBB ▸ hwB'
      · exact absurd hx (Finset.disjoint_left.1 (hP.disjoint B' hB' B hB hBB) hxB')
    · intro hw
      have hwS : w ∈ S := (hP.cover w).2 ⟨B, hB, hw⟩
      exact ⟨hwS, (hlab w hwS x hxS).2 ⟨B, hB, hw, hx⟩⟩
  ext B
  rw [mem_blocks]
  constructor
  · rintro ⟨x, hx, rfl⟩
    obtain ⟨B, hB, hxB⟩ := (hP.cover x).1 hx
    rw [filter_eq B hB x hxB]
    exact hB
  · intro hB
    obtain ⟨x, hx⟩ := hP.nonempty B hB
    exact ⟨x, (hP.cover x).2 ⟨B, hB, hx⟩, filter_eq B hB x hx⟩

/-- The blocks the trees of a forest stand for. -/
def Forest.blocks (F : Forest) : Finset (Finset Label) := (F.map Tree.labels).toFinset

/-- The optimum is at most the size of any agreement forest. -/
theorem kStar_le (h : AgreementForest I P) : kStar I ≤ P.card := Nat.sInf_le ⟨P, h, rfl⟩

/-- **No agreeing labelling has fewer than `k*` blocks.** -/
theorem kStar_le_of_isAgreement {β : Type*} [DecidableEq β] (hI : I.Over S) {f : Label → β}
    (hf : IsAgreement S I.clusters f) : kStar I ≤ (S.image f).card := by
  rw [← card_blocks]
  exact kStar_le ((agreementForest_iff hI (labels_blocks f)).2 ⟨isPartition_blocks f, hf⟩)

/-- Some agreement forest has `k*` blocks: the singletons are one, so there is a
least. -/
theorem exists_agreementForest (hI : I.Over S) : ∃ P, AgreementForest I P ∧ P.card = kStar I := by
  refine Nat.sInf_mem (s := {n | ∃ P, AgreementForest I P ∧ P.card = n}) ⟨_, blocks S id, ?_, rfl⟩
  refine (agreementForest_iff hI (labels_blocks id)).2 ⟨isPartition_blocks id, ?_⟩
  refine isAgreement_of_injOn (fun C hC x hx => ?_) (Set.injOn_id _)
  obtain ⟨F, hF, rfl⟩ := Instance.mem_clusters.1 hC
  exact (Forest.hierarchy (hI.distinct F hF)).singleton x ((hI.labels F hF).symm ▸ hx)

/-- **Some agreeing labelling has `k*` blocks.** -/
theorem exists_isAgreement_card_eq_kStar (hI : I.Over S) :
    ∃ f : Label → Finset (Finset Label), IsAgreement S I.clusters f ∧
      (S.image f).card = kStar I := by
  obtain ⟨P, hP, hcard⟩ := exists_agreementForest hI
  obtain ⟨F, hF⟩ := List.exists_mem_of_ne_nil I hI.nonempty
  obtain ⟨f, hf, hfc⟩ := (hI.labels F hF ▸ hP.partition F hF : IsPartition S P).exists_labels
  exact ⟨f, ((agreementForest_iff hI hf).1 hP).2, hfc.trans hcard⟩

/-- `k*` is at least one. -/
theorem kStar_pos (hI : I.Over S) (hS : S.Nonempty) : 1 ≤ kStar I := by
  obtain ⟨f, -, hf⟩ := exists_isAgreement_card_eq_kStar hI
  rw [← hf, Nat.one_le_iff_ne_zero, ← Nat.pos_iff_ne_zero, Finset.card_pos]
  exact hS.image f

end Maf
