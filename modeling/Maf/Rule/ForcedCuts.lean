/-
# Which forced cuts are safe

`src/Solver/Rule/BRule.cpp`, `src/Solver/Rule/ReverseBRule.cpp` and
`src/Solver/Rule/TwoBRule.cpp`: rules that cut labels off in every forest and do
not branch.  A forced cut is safe when it keeps the least number of blocks of an
agreement forest, `k*`.

The reverse B rule and the 2B rule are safe for any number of forests
(`kStar_reverseB`, `kStar_twoB`).  The B rule cuts off all labels that lie
between the pair in some forest, which is safe exactly when some least agreement
forest has the pair in one block (`kStar_bRule`): always for one label
(`keptTogether_of_one`) and so for two forests, but not for different labels in
different forests (`kStar_threeTrees_ne`).
-/

import Maf.Action.DeleteEdgeAction
import Maf.AgreementForest
import Maf.Rule.SiblingRuleFactory

namespace Maf

/-- The labels that `apply` cuts off in every forest. -/
def Rule.cutLabels : Rule → List Label
  | .bRule b1Label b2Label => if b2Label ≠ 0 then [b1Label, b2Label] else [b1Label]
  | .reverseB toCutLabel => [toCutLabel]
  | .twoB toCutLabel1 toCutLabel2 => [toCutLabel1, toCutLabel2]
  | _ => []

/-- Cuts labels off, one after the other. -/
def Forest.cutAll (Z : List Label) (F : Forest) : Forest := Z.foldl (fun F x => F.cutLabel x) F

/-- The valid instances: every forest is one the solver can hold, with the labels `S`. -/
structure Instance.Valid (I : Instance) (S : Finset Label) : Prop extends I.Over S where
  valid : ∀ F ∈ I, Forest.Valid F

section CutAll

variable {I : Instance} {S : Finset Label} {Z : List Label}

/-- Cutting a label keeps the instance valid. -/
theorem Instance.Valid.cutLabel (hI : I.Valid S) {z : Label} (hz : z ∈ S) :
    Instance.Valid (I.map fun F => F.cutLabel z) S := by
  have spec := fun F hF => Forest.cutLabel_spec (hI.valid F hF) (hI.labels F hF ▸ hz : z ∈ F.labels)
  refine ⟨⟨fun h => hI.nonempty (List.map_eq_nil_iff.1 h), ?_, ?_⟩, ?_⟩
  · intro G hG
    obtain ⟨F, hF, rfl⟩ := List.mem_map.1 hG
    exact (spec F hF).1.distinct
  · intro G hG
    obtain ⟨F, hF, rfl⟩ := List.mem_map.1 hG
    exact (spec F hF).2.1.trans (hI.labels F hF)
  · intro G hG
    obtain ⟨F, hF, rfl⟩ := List.mem_map.1 hG
    exact (spec F hF).1

/-- The forests of a valid instance are hierarchies. -/
theorem Instance.Valid.hierarchy (hI : I.Valid S) : ∀ C ∈ I.clusters, Hierarchy S C := by
  intro C hC
  obtain ⟨F, hF, rfl⟩ := Instance.mem_clusters.1 hC
  exact hI.labels F hF ▸ Forest.hierarchy (hI.distinct F hF)

/-- Cutting a label cuts the hierarchies. -/
theorem Instance.clusters_cutLabel (hI : I.Valid S) {z : Label} (hz : z ∈ S) :
    Instance.clusters (I.map fun F => F.cutLabel z) = I.clusters.map (cutAt {z}) := by
  rw [Instance.clusters, Instance.clusters, List.map_map, List.map_map]
  exact List.map_congr_left fun F hF =>
    (Forest.cutLabel_spec (hI.valid F hF) (hI.labels F hF ▸ hz : z ∈ F.labels)).2.2

/-- **Cutting labels off makes them singletons** and forbids nothing else. -/
theorem isAgreement_cutAll (hI : I.Valid S) (hZ : ∀ z ∈ Z, z ∈ S) :
    Instance.Valid (I.map (Forest.cutAll Z)) S ∧ ∀ {β : Type} {f : Label → β},
      IsAgreement S (Instance.clusters (I.map (Forest.cutAll Z))) f ↔
        IsAgreement S I.clusters f ∧ ∀ z ∈ Z, Isolated S f z := by
  induction Z generalizing I with
  | nil =>
      have h : I.map (Forest.cutAll []) = I := List.map_id I
      rw [h]
      exact ⟨hI, fun {_ _} => by simp⟩
  | cons z Z ih =>
      have hz := hZ z (List.mem_cons_self ..)
      have h : I.map (Forest.cutAll (z :: Z)) = (I.map fun F => F.cutLabel z).map (Forest.cutAll Z) := by
        rw [List.map_map]
        rfl
      obtain ⟨hvalid, hiff⟩ := ih (hI.cutLabel hz) fun w hw => hZ w (List.mem_cons_of_mem _ hw)
      rw [h]
      refine ⟨hvalid, fun {β f} => ?_⟩
      rw [hiff, Instance.clusters_cutLabel hI hz, isAgreement_cutAt_singleton_iff hI.hierarchy
        (fun h => hI.nonempty (List.map_eq_nil_iff.1 h)) hz, and_assoc, List.forall_mem_cons]

/-- Cutting labels off never lowers `k*`, and keeps it exactly when some least
agreement forest has the labels as singletons. -/
theorem kStar_cutAll (hI : I.Valid S) (hZ : ∀ z ∈ Z, z ∈ S) :
    kStar I ≤ kStar (I.map (Forest.cutAll Z)) ∧
      (kStar (I.map (Forest.cutAll Z)) = kStar I ↔
        ∃ f : Label → Finset (Finset Label), IsAgreement S I.clusters f ∧ (∀ z ∈ Z, Isolated S f z) ∧
          (S.image f).card = kStar I) := by
  obtain ⟨hvalid, hiff⟩ := isAgreement_cutAll hI hZ
  obtain ⟨g, hg, hgcard⟩ := exists_isAgreement_card_eq_kStar hvalid.toOver
  have hle : kStar I ≤ kStar (I.map (Forest.cutAll Z)) :=
    hgcard ▸ kStar_le_of_isAgreement hI.toOver (hiff.1 hg).1
  refine ⟨hle, fun h => ⟨g, (hiff.1 hg).1, (hiff.1 hg).2, hgcard.trans h⟩, ?_⟩
  rintro ⟨f, hf, hiso, hcard⟩
  exact le_antisymm (hcard ▸ kStar_le_of_isAgreement hvalid.toOver (hiff.2 ⟨hf, hiso⟩)) hle

end CutAll

namespace SiblingRuleFactory

section ForcedCuts

variable {order : List Label} {f0 : Forest} {fs : List Forest} {S : Finset Label} {a c x : Label}
  {s : Flags}

/-- A statement about the forests that were checked is one about the instance. -/
theorem mem_checked {G : Forest} : G ∈ fs.reverse ++ [f0] ↔ G ∈ f0 :: fs := by
  rw [List.mem_append, List.mem_reverse, List.mem_singleton, List.mem_cons, or_comm]

/-- Some least agreement forest has the labels `a` and `c` in one block. -/
def KeptTogether (I : Instance) (a c : Label) : Prop :=
  ∃ P, AgreementForest I P ∧ P.card = kStar I ∧ ∃ B ∈ P, a ∈ B ∧ c ∈ B

/-- Two labels are kept together when a smallest agreement forest has them in one block. -/
theorem keptTogether_iff {I : Instance} (hI : I.Over S) (ha : a ∈ S) (hc : c ∈ S) :
    KeptTogether I a c ↔ ∃ f : Label → Finset (Finset Label), IsAgreement S I.clusters f ∧
      (S.image f).card = kStar I ∧ f a = f c := by
  constructor
  · rintro ⟨P, hP, hcard, hB⟩
    obtain ⟨F, hF⟩ := List.exists_mem_of_ne_nil I hI.nonempty
    have hpart : IsPartition S P := hI.labels F hF ▸ hP.partition F hF
    obtain ⟨f, hf, hfc⟩ := hpart.exists_labels
    exact ⟨f, ((agreementForest_iff hI hf).1 hP).2, hfc.trans hcard, (hf a ha c hc).2 hB⟩
  · rintro ⟨f, hf, hcard, hac⟩
    have hP := (agreementForest_iff hI (labels_blocks f)).2 ⟨isPartition_blocks f, hf⟩
    exact ⟨_, hP, (card_blocks f).trans hcard, (labels_blocks f a ha c hc).1 hac⟩

/-- Labels that every agreement forest can have as singletons without more blocks
are safe to cut off. -/
theorem kStar_of_exists_isolated {I : Instance} (hI : I.Valid S) {Z : List Label} (hZ : ∀ z ∈ Z, z ∈ S)
    (h : ∀ f : Label → Finset (Finset Label), IsAgreement S I.clusters f →
      ∃ g : Label → Finset (Finset Label) ⊕ Label, IsAgreement S I.clusters g ∧
        (∀ z ∈ Z, Isolated S g z) ∧ (S.image g).card ≤ (S.image f).card) :
    kStar (I.map (Forest.cutAll Z)) = kStar I := by
  obtain ⟨f, hf, hcard⟩ := exists_isAgreement_card_eq_kStar hI.toOver
  obtain ⟨g, hg, hiso, hle⟩ := h f hf
  obtain ⟨hvalid, hiff⟩ := isAgreement_cutAll hI hZ
  have hg' := kStar_le_of_isAgreement hvalid.toOver (hiff.2 ⟨hg, hiso⟩)
  have := (kStar_cutAll hI hZ).1
  omega

/-- **The reverse B rule is safe.** -/
theorem kStar_reverseB (hI : Instance.Valid (f0 :: fs) S) (hp : Pair order f0 a c x)
    (hs : Checked a c x (fs.reverse ++ [f0]) s) (hr : s.reverseBRule = true)
    (he : s.equalPairRule = false) :
    kStar ((f0 :: fs).map (Forest.cutAll [s.reverseBLabel])) = kStar (f0 :: fs) := by
  have hlab : ∀ F ∈ f0 :: fs, F.labels = S := hI.labels
  have ha : a ∈ S := hlab f0 (List.mem_cons_self ..) ▸ hp.left
  have hc : c ∈ S := hlab f0 (List.mem_cons_self ..) ▸ hp.right
  obtain ⟨hx₀, hall⟩ := hs.reverse hr
  obtain ⟨hxS, huncle⟩ := hp.uncle hx₀
  rw [hlab f0 (List.mem_cons_self ..)] at hxS
  have hC₀ : f0.clusters ∈ Instance.clusters (f0 :: fs) := Instance.mem_clusters.2 ⟨f0, by simp, rfl⟩
  have single : ∀ {F}, F ∈ f0 :: fs → ∀ {y}, y ∈ S → {y} ∈ F.clusters := fun {_} hF {_} hy =>
    (hI.hierarchy _ (Instance.mem_clusters.2 ⟨_, hF, rfl⟩)).singleton _ hy
  -- `q` is cut off, and `p` stays with the uncle
  have key : ∀ {p q}, ({a, c} : Finset Label) = {p, q} → p ≠ q → p ∈ S → q ∈ S → x ≠ p → x ≠ q →
      s.reverseBLabel = q → (∀ F ∈ f0 :: fs,
        {p, q} ∈ F.clusters ∧ {p, q, x} ∈ F.clusters ∨ {p, x} ∈ F.clusters) →
      (∃ F ∈ f0 :: fs, {p, x} ∈ F.clusters) → {p, q} ∈ f0.clusters → {p, q, x} ∈ f0.clusters →
      kStar ((f0 :: fs).map (Forest.cutAll [s.reverseBLabel])) = kStar (f0 :: fs) := by
    intro p q hpq hne hpS hqS hxp hxq hlabel hall hset hcherry huncle
    have hbet : ∀ {F}, F ∈ f0 :: fs → {p, q} ∈ F.clusters → {p, q, x} ∈ F.clusters →
        Between F.clusters p x {q} := by
      intro F hF h₂ h₃
      refine ⟨?_, fun b hb => ?_⟩
      · rwa [show ({p, x} ∪ {q} : Finset Label) = {p, q, x} by ext y; simp; tauto]
      · obtain rfl := Finset.mem_singleton.1 hb
        refine ⟨single hF hqS, {p}, single hF hpS, h₂, by simpa using hne, Or.inl ⟨by simp, ?_⟩⟩
        simp [hxp, hxq]
    obtain ⟨G, hG, hGx⟩ := hset
    have hB : ∀ C ∈ Instance.clusters (f0 :: fs), ∃ B, B ⊆ {q} ∧ Between C p x B := by
      intro C hC
      obtain ⟨F, hF, rfl⟩ := Instance.mem_clusters.1 hC
      rcases hall F hF with ⟨h₂, h₃⟩ | h
      · exact ⟨{q}, Finset.Subset.refl _, hbet hF h₂ h₃⟩
      · exact ⟨∅, by simp, Between.of_cherry h⟩
    refine kStar_of_exists_isolated hI (fun z hz => ?_) fun f hf => ?_
    · exact List.mem_singleton.1 hz ▸ hlabel ▸ hqS
    · obtain ⟨g, hg, hiso, hcard⟩ := hf.exists_isolate hI.hierarchy hpS hxS hqS hB
        (Instance.mem_clusters.2 ⟨G, hG, rfl⟩) hGx hC₀ (hbet (List.mem_cons_self ..) hcherry huncle)
      exact ⟨g, hg, fun z hz => List.mem_singleton.1 hz ▸ hlabel ▸ hiso, hcard⟩
  have hor : ∀ F ∈ f0 :: fs, _ := fun F hF => hall F (mem_checked.2 hF)
  have swap : ({c, a, x} : Finset Label) = {a, c, x} := Finset.insert_comm c a {x}
  obtain ⟨G, hG, ⟨hGx, hl⟩ | ⟨hGx, hl⟩⟩ := hs.reverseSet hr he
  · refine key rfl hp.ne ha hc hp.uncle_ne.1 hp.uncle_ne.2 hl (fun F hF => ?_)
      ⟨G, mem_checked.1 hG, hGx⟩ hp.cherry huncle
    rcases hor F hF with h | ⟨h, -⟩ | ⟨-, h⟩
    · exact Or.inl h
    · exact Or.inr h
    · exact absurd (h.symm.trans hl) hp.ne
  · refine key (Finset.pair_comm a c) hp.ne.symm hc ha hp.uncle_ne.2 hp.uncle_ne.1 hl (fun F hF => ?_)
      ⟨G, mem_checked.1 hG, hGx⟩ (Finset.pair_comm a c ▸ hp.cherry) (swap ▸ huncle)
    rw [Finset.pair_comm c a, swap]
    rcases hor F hF with h | ⟨-, h⟩ | ⟨h, -⟩
    · exact Or.inl h
    · exact absurd (hl.symm.trans h) hp.ne
    · exact Or.inr h

/-- **The 2B rule is safe.** -/
theorem kStar_twoB (hI : Instance.Valid (f0 :: fs) S) (hp : Pair order f0 a c x)
    (hs : Checked a c x (fs.reverse ++ [f0]) s) (ht : s.twoBRule = true) (hb : s.bRule = false)
    (hx : s.b1Label ≠ x ∧ s.b2Label ≠ x) :
    kStar ((f0 :: fs).map (Forest.cutAll [s.b1Label, s.b2Label])) = kStar (f0 :: fs) := by
  have hlab : ∀ F ∈ f0 :: fs, F.labels = S := hI.labels
  have ha : a ∈ S := hlab f0 (List.mem_cons_self ..) ▸ hp.left
  have hc : c ∈ S := hlab f0 (List.mem_cons_self ..) ▸ hp.right
  obtain ⟨hx₀, hall⟩ := hs.two ht
  obtain ⟨hxS, huncle⟩ := hp.uncle hx₀
  rw [hlab f0 (List.mem_cons_self ..)] at hxS
  have h₂ := hs.filledTwo ht hb
  have hlabels : s.labels = {s.b1Label, s.b2Label} := by
    rw [Flags.labels, Finset.erase_eq_of_notMem]
    simp only [Finset.mem_insert, Finset.mem_singleton, not_or]
    exact ⟨fun h => h₂ (hs.order h.symm), fun h => h₂ h.symm⟩
  have hxs : x ∉ s.labels := by
    rw [hlabels]
    simp only [Finset.mem_insert, Finset.mem_singleton, not_or]
    exact ⟨hx.1.symm, hx.2.symm⟩
  have hbS : ∀ b ∈ s.labels, b ∈ S := by
    intro b hbl
    obtain ⟨D, hD, B, -, hbet, hbB⟩ := hs.found (Or.inr ht) b hbl
    exact hlab D (mem_checked.1 hD) ▸ Forest.subset_labels hbet.cluster (Finset.mem_union_right _ hbB)
  have hB : ∀ C ∈ Instance.clusters (f0 :: fs), ∃ B, B ⊆ s.labels ∧ Between C a c B ∧
      insert x ({a, c} ∪ B) ∈ C := by
    intro C hC
    obtain ⟨F, hF, rfl⟩ := Instance.mem_clusters.1 hC
    obtain ⟨B, hBs, hbet, hxB⟩ := hall F (mem_checked.2 hF)
    exact ⟨B, hBs, hbet, hxB.resolve_left fun h => hxs (hBs h)⟩
  have hbetween : ∀ b ∈ s.labels, ∃ D ∈ Instance.clusters (f0 :: fs), ∃ B, B ⊆ s.labels ∧
      Between D a c B ∧ b ∈ B := by
    intro b hbl
    obtain ⟨D, hD, hB⟩ := hs.found (Or.inr ht) b hbl
    exact ⟨_, Instance.mem_clusters.2 ⟨D, mem_checked.1 hD, rfl⟩, hB⟩
  rw [hlabels] at hxs hbS hB hbetween
  refine kStar_of_exists_isolated hI (fun z hz => hbS z (by simpa using hz)) fun f hf => ?_
  obtain ⟨g, hg, hiso, hcard⟩ := hf.exists_isolate_two hI.hierarchy ha hc hxS hbS hB hp.uncle_ne hxs
    (Instance.mem_clusters.2 ⟨f0, by simp, rfl⟩) hp.cherry huncle hbetween
  exact ⟨g, hg, fun z hz => hiso z (by simpa using hz), hcard⟩

/-- **The B rule is safe exactly when the pair may stay together.** -/
theorem kStar_bRule (hI : Instance.Valid (f0 :: fs) S) (hp : Pair order f0 a c x)
    (hs : Checked a c x (fs.reverse ++ [f0]) s) (hb : s.bRule = true) (he : s.equalPairRule = false) :
    kStar ((f0 :: fs).map (Forest.cutAll (Rule.bRule s.b1Label s.b2Label).cutLabels)) =
      kStar (f0 :: fs) ↔ KeptTogether (f0 :: fs) a c := by
  have hlab : ∀ F ∈ f0 :: fs, F.labels = S := hI.labels
  have ha : a ∈ S := hlab f0 (List.mem_cons_self ..) ▸ hp.left
  have hc : c ∈ S := hlab f0 (List.mem_cons_self ..) ▸ hp.right
  have hC₀ : f0.clusters ∈ Instance.clusters (f0 :: fs) := Instance.mem_clusters.2 ⟨f0, by simp, rfl⟩
  have hmem : ∀ b, b ∈ (Rule.bRule s.b1Label s.b2Label).cutLabels ↔ b ∈ s.labels := by
    intro b
    have h₁ := hs.filledOne hb he
    rw [Flags.mem_labels, Rule.cutLabels]
    split_ifs with h₂
    · simp only [List.mem_cons, List.not_mem_nil, or_false]
      exact ⟨fun h => ⟨h.elim (fun h => h ▸ h₁) fun h => h ▸ h₂, h⟩, And.right⟩
    · rw [not_not] at h₂
      rw [List.mem_singleton]
      exact ⟨fun h => ⟨h ▸ h₁, Or.inl h⟩, fun h => h.2.resolve_right fun he => h.1 (he.trans h₂)⟩
  have hfound : ∀ b ∈ s.labels, ∃ D ∈ Instance.clusters (f0 :: fs), ∃ B, B ⊆ s.labels ∧
      Between D a c B ∧ b ∈ B := by
    intro b hbl
    obtain ⟨D, hD, hB⟩ := hs.found (Or.inl hb) b hbl
    exact ⟨_, Instance.mem_clusters.2 ⟨D, mem_checked.1 hD, rfl⟩, hB⟩
  have hbS : s.labels ⊆ S := by
    intro b hbl
    obtain ⟨D, hD, B, -, hbet, hbB⟩ := hfound b hbl
    exact (hI.hierarchy D hD).subset _ hbet.cluster (Finset.mem_union_right _ hbB)
  have hnot : a ∉ s.labels ∧ c ∉ s.labels := by
    refine ⟨fun h => ?_, fun h => ?_⟩
    · obtain ⟨D, -, B, -, hbet, hB⟩ := hfound a h
      exact hbet.notMem.1 hB
    · obtain ⟨D, -, B, -, hbet, hB⟩ := hfound c h
      exact hbet.notMem.2 hB
  have hX : ∀ C ∈ Instance.clusters (f0 :: fs), ∃ X ∈ C, X \ s.labels = {a, c} := by
    intro C hC
    obtain ⟨F, hF, rfl⟩ := Instance.mem_clusters.1 hC
    obtain ⟨B, hBs, -, hbet⟩ := hs.one hb F (mem_checked.2 hF)
    exact hbet.exists_sdiff hBs hnot.1 hnot.2
  rw [(kStar_cutAll hI fun z hz => hbS ((hmem z).1 hz)).2, keptTogether_iff hI.toOver ha hc]
  constructor
  · rintro ⟨f, hf, hiso, hcard⟩
    refine ⟨f, hf, hcard, ?_⟩
    by_contra hac
    obtain ⟨g, hg, hlt⟩ := hf.exists_join hI.hierarchy ha hc hbS
      (fun z hz => hiso z ((hmem z).2 hz)) hX hC₀ hp.cherry hac
    exact absurd (kStar_le_of_isAgreement hI.toOver hg) (by omega)
  · rintro ⟨f, hf, hcard, hac⟩
    refine ⟨f, hf, fun z hz => ?_, hcard⟩
    obtain ⟨D, hD, B, -, hbet, hzB⟩ := hfound z ((hmem z).1 hz)
    exact isolated_of_between (hI.hierarchy _ hC₀) hp.cherry (hf.embeds D hD) (hf.agree D hD _ hC₀) ha hc
      hbet hac hzB (hbS ((hmem z).1 hz))

/-- **A pair with at most one label between them everywhere may stay together.** -/
theorem keptTogether_of_one {I : Instance} (hI : I.Valid S) (ha : a ∈ S) (hc : c ∈ S) (hf0 : f0 ∈ I)
    (hcherry : {a, c} ∈ f0.clusters) {b : Label}
    (hB : ∀ C ∈ I.clusters, ∃ B, B ⊆ {b} ∧ Between C a c B) : KeptTogether I a c := by
  have hC₀ : f0.clusters ∈ I.clusters := Instance.mem_clusters.2 ⟨f0, hf0, rfl⟩
  -- least agreement forests keep the pair together once all that lies between them is cut off
  have together : ∀ {β : Type} [DecidableEq β] {g : Label → β} {Z : Finset Label}, Z ⊆ S →
      IsAgreement S I.clusters g → (S.image g).card ≤ kStar I → (∀ z ∈ Z, Isolated S g z) →
      a ∉ Z → c ∉ Z → (∀ C ∈ I.clusters, ∃ B, B ⊆ Z ∧ Between C a c B) → KeptTogether I a c := by
    intro β _ g Z hZ hg hcard hiso haZ hcZ hbet
    have hac : g a = g c := by
      by_contra hac
      obtain ⟨g', hg', hlt⟩ := hg.exists_join hI.hierarchy ha hc hZ hiso (fun C hC => by
        obtain ⟨B, hBZ, hB⟩ := hbet C hC
        exact hB.exists_sdiff hBZ haZ hcZ) hC₀ hcherry hac
      exact absurd (kStar_le_of_isAgreement hI.toOver hg') (by omega)
    refine ⟨blocks S g, (agreementForest_iff hI.toOver (labels_blocks g)).2 ⟨isPartition_blocks g, hg⟩, ?_,
      (labels_blocks g a ha c hc).1 hac⟩
    exact (card_blocks g).trans (le_antisymm hcard (kStar_le_of_isAgreement hI.toOver hg))
  obtain ⟨f, hf, hcard⟩ := exists_isAgreement_card_eq_kStar hI.toOver
  by_cases hD : ∃ D ∈ I.clusters, Between D a c {b}
  · obtain ⟨D, hD, hbet⟩ := hD
    have hbS : b ∈ S := (hI.hierarchy D hD).subset _ hbet.cluster (by simp)
    obtain ⟨g, hg, hiso, hle⟩ := hf.exists_isolate hI.hierarchy ha hc hbS hB hC₀ hcherry hD hbet
    exact together (Finset.singleton_subset_iff.2 hbS) hg (hle.trans hcard.le)
      (fun z hz => Finset.mem_singleton.1 hz ▸ hiso) hbet.notMem.1 hbet.notMem.2 hB
  · refine together (Finset.empty_subset S) hf hcard.le (by simp) (by simp) (by simp) fun C hC => ?_
    obtain ⟨B, hBb, hbet⟩ := hB C hC
    rcases Finset.subset_singleton_iff.1 hBb with rfl | rfl
    · exact ⟨∅, Finset.Subset.refl _, hbet⟩
    · exact absurd ⟨C, hC, hbet⟩ hD

/-- **With two forests the B rule is safe.** -/
theorem kStar_bRule_two {f1 : Forest} (hI : Instance.Valid [f0, f1] S) (hp : Pair order f0 a c x)
    (hs : Checked a c x [f1, f0] s) (hb : s.bRule = true) (he : s.equalPairRule = false) :
    kStar ([f0, f1].map (Forest.cutAll (Rule.bRule s.b1Label s.b2Label).cutLabels)) =
      kStar [f0, f1] := by
  refine (kStar_bRule hI hp hs hb he).2 ?_
  have hlab : f0.labels = S := hI.labels f0 (by simp)
  obtain ⟨B, -, hcard, hbet⟩ := hs.one hb f1 (by simp)
  obtain ⟨b, hBb⟩ := Finset.card_le_one_iff_subset_singleton.1 hcard
  refine keptTogether_of_one hI (hlab ▸ hp.left) (hlab ▸ hp.right) (List.mem_cons_self ..) hp.cherry
    (b := b) fun C hC => ?_
  obtain ⟨F, hF, rfl⟩ := Instance.mem_clusters.1 hC
  rcases List.mem_pair.1 hF with rfl | rfl
  · exact ⟨∅, by simp, Between.of_cherry hp.cherry⟩
  · exact ⟨B, hBb, hbet⟩

/-- **Which forced cuts are safe**: those of the reverse B rule and the 2B rule, and
those of the B rule exactly when some least agreement forest has the pair in one
block. -/
theorem kStar_cutAll_eq_iff {I : Instance} {rule : Rule} (hI : I.Valid S)
    (h : allRules order I = some (some rule)) (hcut : rule.cutLabels ≠ []) :
    kStar (I.map (Forest.cutAll rule.cutLabels)) = kStar I ↔
      ((∃ b1Label b2Label, rule = .bRule b1Label b2Label) →
        ∃ f0 ∈ I.head?, ∃ a c, getSiblings order f0 = some (a, c) ∧ KeptTogether I a c) := by
  cases I with
  | nil => exact absurd rfl hI.nonempty
  | cons f0 fs =>
    obtain ⟨a, c, x, hp, rfl | ⟨s, hs, rfl⟩⟩ :=
      checked_of_allRules (fun F hF => ⟨hI.valid F hF, hI.labels F hF⟩) h
    · exact absurd rfl hcut
    unfold decideRule at hcut ⊢
    split_ifs at hcut ⊢ with he hb hr ht
    · exact absurd rfl hcut
    · rw [kStar_bRule hI hp hs hb (by simpa using he)]
      refine ⟨fun hk _ => ⟨f0, rfl, a, c, hp.siblings, hk⟩, fun hk => ?_⟩
      obtain ⟨f0', hf0', a', c', hsib, hk⟩ := hk ⟨_, _, rfl⟩
      obtain rfl : f0 = f0' := Option.some.inj hf0'
      obtain ⟨rfl, rfl⟩ := Prod.mk.inj (Option.some.inj (hp.siblings.symm.trans hsib))
      exact hk
    · refine ⟨fun _ ⟨_, _, hrule⟩ => (by cases hrule), fun _ => ?_⟩
      exact kStar_reverseB hI hp hs hr (by simpa using he)
    · refine ⟨fun _ ⟨_, _, hrule⟩ => (by cases hrule), fun _ => ?_⟩
      simp only [Bool.and_eq_true, decide_eq_true_eq] at ht
      exact kStar_twoB hI hp hs ht.1 (by simpa using hb) ht.2
    · exact absurd rfl hcut

/-- Three trees where the label `3` lies between the pair `5`, `6` in the second and
the label `1` in the third. -/
def threeTrees : Instance :=
  [[.node 0 (.node 1 (.node 2 (.leaf 3 1 ∅) (.node 4 (.leaf 5 5 ∅) (.leaf 6 6 ∅))) (.leaf 7 7 ∅))
      (.node 8 (.leaf 9 2 ∅) (.node 10 (.leaf 11 3 ∅) (.leaf 12 4 ∅)))],
    [.node 13 (.node 14 (.leaf 15 1 ∅) (.leaf 16 7 ∅))
      (.node 17 (.leaf 18 2 ∅) (.node 19 (.node 20 (.node 21 (.leaf 22 3 ∅) (.leaf 23 6 ∅))
        (.leaf 24 5 ∅)) (.leaf 25 4 ∅)))],
    [.node 26 (.node 27 (.node 28 (.node 29 (.leaf 30 1 ∅) (.leaf 31 5 ∅)) (.leaf 32 6 ∅))
        (.leaf 33 7 ∅)) (.node 34 (.leaf 35 2 ∅) (.node 36 (.leaf 37 3 ∅) (.leaf 38 4 ∅)))]]

/-- The three trees are an instance. -/
theorem threeTrees_valid : threeTrees.Valid {1, 2, 3, 4, 5, 6, 7} := by
  have h : ∀ F ∈ threeTrees, F.Valid ∧ F.labels = {1, 2, 3, 4, 5, 6, 7} := by decide +kernel
  exact ⟨⟨List.cons_ne_nil _ _, fun F hF => (h F hF).1.distinct, fun F hF => (h F hF).2⟩,
    fun F hF => (h F hF).1⟩

/-- The factory finds the B rule for the three trees. -/
theorem allRules_threeTrees :
    allRules (heuristicLabelOrder (threeTrees.headD [])) threeTrees = some (some (.bRule 3 1)) := by
  decide +kernel

/-- The singletons `5` and `6` and one block with the rest agree. -/
theorem kStar_threeTrees_le : kStar threeTrees ≤ 3 := by
  have h : IsAgreement {1, 2, 3, 4, 5, 6, 7} threeTrees.clusters fun x : Label =>
      if x = 5 then (1 : Fin 3) else if x = 6 then 2 else 0 := by decide +kernel
  exact (kStar_le_of_isAgreement threeTrees_valid.toOver h).trans (by decide +kernel)

/-- **The B rule with two labels can cost a block.**  With `3` and `1` cut off, the
labels `5`, `7` and `2` still lie in two blocks. -/
theorem kStar_threeTrees_ne :
    ∃ rule : Rule, allRules (heuristicLabelOrder (threeTrees.headD [])) threeTrees = some (some rule) ∧
      rule.cutLabels ≠ [] ∧ threeTrees.Valid {1, 2, 3, 4, 5, 6, 7} ∧
      (∀ F ∈ threeTrees, F.length = 1) ∧
      kStar (threeTrees.map (Forest.cutAll rule.cutLabels)) ≠ kStar threeTrees := by
  refine ⟨_, allRules_threeTrees, by decide, threeTrees_valid, by decide, fun heq => ?_⟩
  obtain ⟨f, hf, hiso, hcard⟩ := (kStar_cutAll threeTrees_valid (by decide)).2.1 heq
  have hS : ∀ {x : Label}, x ∈ ({1, 2, 3, 5, 7} : Finset Label) → x ∈ ({1, 2, 3, 4, 5, 6, 7} : Finset Label) := by
    decide +revert
  have h₁ : Isolated _ f 1 := hiso 1 (by decide)
  have h₃ : Isolated _ f 3 := hiso 3 (by decide)
  obtain ⟨u, hu, v, hv, huv⟩ : ∃ u ∈ ({2, 5, 7} : Finset Label), ∃ v ∈ ({2, 5, 7} : Finset Label),
      f u ≠ f v := by
    by_contra hall
    push Not at hall
    obtain ⟨C, hC, D, hD, hCD⟩ : ∃ C ∈ threeTrees.clusters, ∃ D ∈ threeTrees.clusters,
        Triple C 5 7 2 ∧ ¬Triple D 5 7 2 := by decide +kernel
    exact hCD.2 (hf.agree C hC D hD 5 (hS (by decide)) 7 (hS (by decide)) 2 (hS (by decide))
      (hall 5 (by decide) 7 (by decide)) (hall 7 (by decide) 2 (by decide)) hCD.1)
  have hsub : ({2, 5, 7} : Finset Label) ⊆ {1, 2, 3, 4, 5, 6, 7} := by decide
  have hne : ∀ {x w}, x ∈ ({2, 5, 7} : Finset Label) → Isolated {1, 2, 3, 4, 5, 6, 7} f w →
      x ≠ w → f x ≠ f w := fun hx hw hxw h => hxw (hw _ (hsub hx) h)
  have hfour : ({f 1, f 3, f u, f v} : Finset _).card = 4 := by
    have h13 : f 1 ≠ f 3 := fun h => absurd (h₃ 1 (by decide) h) (by decide)
    have hu₁ := hne hu h₁ (by rintro rfl; revert hu; decide)
    have hu₃ := hne hu h₃ (by rintro rfl; revert hu; decide)
    have hv₁ := hne hv h₁ (by rintro rfl; revert hv; decide)
    have hv₃ := hne hv h₃ (by rintro rfl; revert hv; decide)
    rw [Finset.card_insert_of_notMem, Finset.card_insert_of_notMem, Finset.card_pair huv]
    · simp [hu₃.symm, hv₃.symm]
    · simp [h13, hu₁.symm, hv₁.symm]
  have hle : ({f 1, f 3, f u, f v} : Finset _).card ≤ ((({1, 2, 3, 4, 5, 6, 7} : Finset Label)).image f).card := by
    refine Finset.card_le_card fun y hy => ?_
    simp only [Finset.mem_insert, Finset.mem_singleton] at hy
    rcases hy with rfl | rfl | rfl | rfl
    · exact Finset.mem_image_of_mem f (by decide)
    · exact Finset.mem_image_of_mem f (by decide)
    · exact Finset.mem_image_of_mem f (hsub hu)
    · exact Finset.mem_image_of_mem f (hsub hv)
  have := kStar_threeTrees_le
  omega

/-- In the three trees no least agreement forest has the pair in one block. -/
theorem kStar_cutAll_eq_iff_threeTrees :
    kStar (threeTrees.map (Forest.cutAll (Rule.bRule 3 1).cutLabels)) = kStar threeTrees ↔
      ((∃ b1Label b2Label, Rule.bRule 3 1 = .bRule b1Label b2Label) →
        ∃ f0 ∈ threeTrees.head?, ∃ a c, getSiblings (heuristicLabelOrder (threeTrees.headD [])) f0 =
          some (a, c) ∧ KeptTogether threeTrees a c) :=
  kStar_cutAll_eq_iff threeTrees_valid allRules_threeTrees (by decide)

end ForcedCuts

end SiblingRuleFactory

end Maf
