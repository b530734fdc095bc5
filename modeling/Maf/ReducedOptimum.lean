/-
# What reductions do to the optimum

`k*` of an instance whose labels are reduced.  Labels that are dropped in all forests
leave no more blocks (`kStar_trace_le`).

None is lost when a subtree that all forests have gives way to one label
(`kStar_expand`), nor when a chain that all forests have is cut down to more labels than
there are forests (`kStar_chain`).
-/

import Maf.AgreementForest
import Maf.CommonChain
import Maf.Expansion

namespace Maf

section Optimum

variable {S T V : Finset Label} {x : Label} {D : Finset (Finset Label)} {I I' : Instance}

/-- The clusters of an instance form hierarchies. -/
theorem Instance.Over.hierarchy (hI : I.Over S) : ∀ C ∈ I.clusters, Hierarchy S C := by
  intro C hC
  obtain ⟨F, hF, rfl⟩ := Instance.mem_clusters.1 hC
  have := Forest.hierarchy (hI.distinct F hF)
  rwa [hI.labels F hF] at this

/-- **Fewer labels need no more blocks.** -/
theorem kStar_trace_le (hI : I.Over S) (hI' : I'.Over T) (hTS : T ⊆ S)
    (hcl : I'.clusters = I.clusters.map (trace · T)) :
    kStar I' ≤ kStar I := by
  obtain ⟨f, hf, hcard⟩ := exists_isAgreement_card_eq_kStar hI
  have htrace := hf.trace hTS
  rw [← hcl] at htrace
  calc kStar I' ≤ (T.image f).card := kStar_le_of_isAgreement hI' htrace
    _ ≤ (S.image f).card := Finset.card_le_card (Finset.image_subset_image hTS)
    _ = kStar I := hcard

/-- **Expanding one label in every forest keeps `k*`.** -/
theorem kStar_expand (hI : I.Over S) (hI' : I'.Over (S ∪ V)) (h : Expandable S x V D)
    (hcl : I'.clusters = I.clusters.map (expandAt x V D)) : kStar I' = kStar I := by
  refine le_antisymm ?_ (kStar_trace_le hI' hI Finset.subset_union_left ?_)
  · obtain ⟨f, hf, hcard⟩ := exists_isAgreement_card_eq_kStar hI
    have hexp := hf.expand h fun C hC => (hI.hierarchy C hC).subset
    rw [← hcl] at hexp
    calc kStar I' ≤ ((S ∪ V).image (f ∘ into x V)).card := kStar_le_of_isAgreement hI' hexp
      _ = kStar I := by rw [h.image_into, hcard]
  · rw [hcl, List.map_map]
    exact ((List.map_congr_left fun C hC => h.trace_expandAt_self (hI.hierarchy C hC)).trans (List.map_id' _)).symm

/-- **A long common chain made shorter keeps `k*`**: more of its labels stay than there are forests, and
those that go are at its upper end. -/
theorem kStar_chain {A : Finset (Finset Label) → Finset Label} {chain : Finset Label} {rank : Label → ℕ} (hI : I.Over S)
    (hI' : I'.Over T) (hTS : T ⊆ S) (hcl : I'.clusters = I.clusters.map (trace · T))
    (hchain : ∀ C ∈ I.clusters, Chained C (A C) chain rank) (hST : S \ chain ⊆ T)
    (hlow : ∀ c ∈ T ∩ chain, ∀ e ∈ chain, e ∉ T → rank c < rank e) (hlen : I.length < (T ∩ chain).card) :
    kStar I' = kStar I := by
  refine le_antisymm (kStar_trace_le hI hI' hTS hcl) ?_
  obtain ⟨f, hf, hcard⟩ := exists_isAgreement_card_eq_kStar hI'
  rw [hcl] at hf
  obtain ⟨g, hg, hle⟩ := lengthens_of_chain ⟨hI.hierarchy, hchain⟩ hf.of_trace hTS hST hlow
    (by rwa [Instance.clusters, List.length_map])
  calc kStar I ≤ (S.image g).card := kStar_le_of_isAgreement hI hg
    _ ≤ (T.image f).card := hle
    _ = kStar I' := hcard

end Optimum

end Maf
