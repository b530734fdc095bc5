/-
# Expanding a label into a subtree

A forest in which a pendant subtree was collapsed to one label is expanded again:
the label `x` gives way to a subtree with the labels `V` and the clusters `D`
(`expandAt`).  Every label of the expanded forest has its place in the collapsed
one (`into`).

An agreement forest of collapsed forests is one of the expanded ones, the whole
subtree in the block of its label (`IsAgreement.expand`), and the collapsed forests
are what the expanded ones induce on their labels (`trace_expandAt_self`).  The
trees of a forest keep being induced by the forest they came from, through cuts
(`trace_cutAt`) and expansions (`trace_expandAt`).
-/

import Maf.Surgery

namespace Maf

variable {α β : Type*} [DecidableEq α]

/-- The clusters with the subtree of labels `V` and clusters `D` in the place of the
label `x`. -/
def expandAt (x : α) (V : Finset α) (D C : Finset (Finset α)) : Finset (Finset α) :=
  C.image (fun X => if x ∈ X then X ∪ V else X) ∪ D

/-- The label of the collapsed forest that stands for `y`. -/
def into (x : α) (V : Finset α) (y : α) : α := if y ∈ V then x else y

/-- **A subtree that can stand for a label**: the labels `V`, one of them `x`, of which no
other is among the labels `S` of the collapsed forest. -/
structure Expandable (S : Finset α) (x : α) (V : Finset α) (D : Finset (Finset α)) : Prop where
  mem : x ∈ S
  least : x ∈ V
  fresh : ∀ y ∈ S, y ∈ V → y = x
  hierarchy : Hierarchy V D

/-- The clusters of an expanded hierarchy. -/
theorem mem_expandAt {x : α} {V Y : Finset α} {C D : Finset (Finset α)} :
    Y ∈ expandAt x V D C ↔ (∃ X ∈ C, (if x ∈ X then X ∪ V else X) = Y) ∨ Y ∈ D := by
  simp [expandAt]

/-- A label of the expanded part goes to the label it replaces. -/
theorem into_of_mem {x y : α} {V : Finset α} (h : y ∈ V) : into x V y = x := if_pos h

/-- Another label stays itself. -/
theorem into_of_notMem {x y : α} {V : Finset α} (h : y ∉ V) : into x V y = y := if_neg h

section Expand

variable {S V X : Finset α} {C C' D : Finset (Finset α)} {x y : α} {f : α → β}

/-- Every label goes to one of the hierarchy that is expanded. -/
theorem Expandable.into_mem (h : Expandable S x V D) (hy : y ∈ S ∪ V) : into x V y ∈ S := by
  by_cases hV : y ∈ V
  · rw [into_of_mem hV]
    exact h.mem
  · rw [into_of_notMem hV]
    exact (Finset.mem_union.1 hy).resolve_right hV

/-- The labels of the collapsed forest stand for themselves. -/
theorem Expandable.into_self (h : Expandable S x V D) (hy : y ∈ S) : into x V y = y := by
  by_cases hV : y ∈ V
  · rw [into_of_mem hV, h.fresh y hy hV]
  · exact into_of_notMem hV

/-- The labels that were there before: `x` and those outside of the subtree. -/
theorem Expandable.eq_insert (h : Expandable S x V D) : S = insert x ((S ∪ V) \ V) := by
  ext y
  rw [Finset.mem_insert, Finset.mem_sdiff, Finset.mem_union]
  constructor
  · intro hy
    by_cases hV : y ∈ V
    · exact Or.inl (h.fresh y hy hV)
    · exact Or.inr ⟨Or.inl hy, hV⟩
  · rintro (rfl | ⟨hy | hy, hV⟩)
    · exact h.mem
    · exact hy
    · exact absurd hy hV

/-- **A label lies in an expanded cluster** when its place lies in the cluster. -/
theorem Expandable.mem_expanded_iff (h : Expandable S x V D) (hX : X ⊆ S) :
    y ∈ (if x ∈ X then X ∪ V else X) ↔ into x V y ∈ X := by
  by_cases hV : y ∈ V
  · rw [into_of_mem hV]
    split_ifs with hx
    · exact iff_of_true (Finset.mem_union_right _ hV) hx
    · refine iff_of_false (fun hy => hx ?_) hx
      rwa [← h.fresh y (hX hy) hV]
  · rw [into_of_notMem hV]
    split_ifs
    · rw [Finset.mem_union, or_iff_left hV]
    · exact Iff.rfl

/-- **The triples of an expanded forest** are those of the collapsed one, and those of the
subtree. -/
theorem Expandable.triple_iff (h : Expandable S x V D) (hC : ∀ X ∈ C, X ⊆ S) {z w : α} :
    Triple (expandAt x V D C) y z w ↔ Triple C (into x V y) (into x V z) (into x V w) ∨ Triple D y z w := by
  constructor
  · rintro ⟨Y, hY, hyY, hzY, hwY⟩
    rcases mem_expandAt.1 hY with ⟨X, hX, rfl⟩ | hYD
    · rw [h.mem_expanded_iff (hC X hX)] at hyY hzY hwY
      exact Or.inl ⟨X, hX, hyY, hzY, hwY⟩
    · exact Or.inr ⟨Y, hYD, hyY, hzY, hwY⟩
  · rintro (⟨X, hX, hyX, hzX, hwX⟩ | ⟨Y, hYD, hyY, hzY, hwY⟩)
    · rw [← h.mem_expanded_iff (hC X hX)] at hyX hzX hwX
      exact ⟨_, mem_expandAt.2 (Or.inl ⟨X, hX, rfl⟩), hyX, hzX, hwX⟩
    · exact ⟨Y, mem_expandAt.2 (Or.inr hYD), hyY, hzY, hwY⟩

/-- The blocks still fit when the whole subtree joins the block of its label. -/
theorem Embeds.expand (h : Expandable S x V D) (hC : ∀ X ∈ C, X ⊆ S) (he : Embeds S C f) :
    Embeds (S ∪ V) (expandAt x V D C) (f ∘ into x V) := by
  refine ⟨fun y hy z hz hyz => ?_, fun Y hY b b' hb hb' => ?_⟩
  · obtain ⟨X, hX, hyX, hzX⟩ := he.joined _ (h.into_mem hy) _ (h.into_mem hz) hyz
    rw [← h.mem_expanded_iff (hC X hX)] at hyX hzX
    exact ⟨_, mem_expandAt.2 (Or.inl ⟨X, hX, rfl⟩), hyX, hzX⟩
  · rcases mem_expandAt.1 hY with ⟨X, hX, rfl⟩ | hYD
    · have used : ∀ c, Used (S ∪ V) (f ∘ into x V) (if x ∈ X then X ∪ V else X) c → Used S f X c := by
        rintro c ⟨y, hy, z, hz, hyc, hzc, hyX, hzX⟩
        rw [h.mem_expanded_iff (hC X hX)] at hyX hzX
        exact ⟨_, h.into_mem hy, _, h.into_mem hz, hyc, hzc, hyX, hzX⟩
      exact he.disjoint X hX b b' (used b hb) (used b' hb')
    · -- the edges of the subtree are used by the block of its label alone
      have only : ∀ c, Used (S ∪ V) (f ∘ into x V) Y c → c = f x := by
        rintro c ⟨y, -, z, -, hyc, -, hyY, -⟩
        rw [← hyc, Function.comp_apply, into_of_mem (h.hierarchy.subset Y hYD hyY)]
      rw [only b hb, only b' hb']

/-- The triples of the blocks still agree. -/
theorem Agrees.expand (h : Expandable S x V D) (hC : ∀ X ∈ C, X ⊆ S) (hC' : ∀ X ∈ C', X ⊆ S)
    (ha : Agrees S C C' f) : Agrees (S ∪ V) (expandAt x V D C) (expandAt x V D C') (f ∘ into x V) := by
  intro y hy z hz w hw hyz hzw htri
  rw [h.triple_iff hC] at htri
  rw [h.triple_iff hC']
  exact htri.imp_left (ha _ (h.into_mem hy) _ (h.into_mem hz) _ (h.into_mem hw) hyz hzw)

/-- **An agreement forest of the collapsed forests** is one of the expanded forests. -/
theorem IsAgreement.expand {𝒞 : List (Finset (Finset α))} (h : Expandable S x V D)
    (h𝒞 : ∀ C ∈ 𝒞, ∀ X ∈ C, X ⊆ S) (ha : IsAgreement S 𝒞 f) :
    IsAgreement (S ∪ V) (𝒞.map (expandAt x V D)) (f ∘ into x V) := by
  refine ⟨fun C' hC' => ?_, fun C' hC' D' hD' => ?_⟩
  · obtain ⟨C, hC, rfl⟩ := List.mem_map.1 hC'
    exact (ha.embeds C hC).expand h (h𝒞 C hC)
  · obtain ⟨C, hC, rfl⟩ := List.mem_map.1 hC'
    obtain ⟨E, hE, rfl⟩ := List.mem_map.1 hD'
    exact (ha.agree C hC E hE).expand h (h𝒞 C hC) (h𝒞 E hE)

/-- No block is added. -/
theorem Expandable.image_into [DecidableEq β] (h : Expandable S x V D) :
    (S ∪ V).image (f ∘ into x V) = S.image f := by
  ext b
  simp only [Finset.mem_image, Function.comp_apply]
  constructor
  · rintro ⟨y, hy, rfl⟩
    exact ⟨_, h.into_mem hy, rfl⟩
  · rintro ⟨y, hy, rfl⟩
    exact ⟨y, Finset.mem_union_left _ hy, by rw [h.into_self hy]⟩

/-- **The block of a label, expanded.** -/
theorem Expandable.filter_into [DecidableEq β] (h : Expandable S x V D) (b : β) :
    (S ∪ V).filter (fun y => f (into x V y) = b) =
      if x ∈ S.filter (f · = b) then S.filter (f · = b) ∪ V else S.filter (f · = b) := by
  ext y
  rw [h.mem_expanded_iff (Finset.filter_subset _ _), Finset.mem_filter, Finset.mem_filter]
  refine and_congr_left fun _ => ⟨h.into_mem, fun hy => ?_⟩
  by_cases hV : y ∈ V
  · exact Finset.mem_union_right _ hV
  · rw [into_of_notMem hV] at hy
    exact Finset.mem_union_left _ hy

/-- **What an expanded forest induces on expanded labels** is what the collapsed forest
induces on the labels, expanded. -/
theorem Expandable.trace_expandAt (h : Expandable S x V D) (hC : ∀ X ∈ C, X ⊆ S) {L : Finset α} (hL : L ⊆ S)
    (hx : x ∈ L) : trace (expandAt x V D C) (L ∪ V) = expandAt x V D (trace C L) := by
  have hD : ∀ Y ∈ D, Y ⊆ V := h.hierarchy.subset
  ext Y
  rw [mem_trace, mem_expandAt]
  -- the trace of an expanded cluster, expanded
  have key : ∀ X ∈ C, (if x ∈ X then X ∪ V else X) ∩ (L ∪ V) = if x ∈ X ∩ L then X ∩ L ∪ V else X ∩ L := by
    intro X hX
    ext y
    rw [h.mem_expanded_iff (Finset.inter_subset_left.trans (hC X hX)), Finset.mem_inter,
      h.mem_expanded_iff (hC X hX), Finset.mem_inter]
    refine and_congr_right fun _ => ?_
    have hLV := h.mem_expanded_iff (y := y) hL
    rwa [if_pos hx] at hLV
  constructor
  · rintro ⟨hne, Z, hZ, rfl⟩
    rcases mem_expandAt.1 hZ with ⟨X, hX, rfl⟩ | hZD
    · refine Or.inl ⟨X ∩ L, mem_trace.2 ⟨?_, X, hX, rfl⟩, (key X hX).symm⟩
      rw [key X hX] at hne
      split_ifs at hne with hxX
      · exact ⟨x, hxX⟩
      · exact hne
    · exact Or.inr (by rwa [Finset.inter_eq_left.2 ((hD Z hZD).trans Finset.subset_union_right)])
  · rintro (⟨X, hX, rfl⟩ | hYD)
    · obtain ⟨hne, Z, hZ, rfl⟩ := mem_trace.1 hX
      refine ⟨?_, _, mem_expandAt.2 (Or.inl ⟨Z, hZ, rfl⟩), key Z hZ⟩
      split_ifs
      · exact hne.mono Finset.subset_union_left
      · exact hne
    · exact ⟨h.hierarchy.nonempty Y hYD, Y, mem_expandAt.2 (Or.inr hYD),
        Finset.inter_eq_left.2 ((hD Y hYD).trans Finset.subset_union_right)⟩

/-- Away from the subtree an expanded forest induces what the collapsed one did. -/
theorem Expandable.trace_of_notMem (h : Expandable S x V D) {L : Finset α} (hL : L ⊆ S)
    (hx : x ∉ L) : trace (expandAt x V D C) L = trace C L := by
  have hLV : Disjoint V L := Finset.disjoint_left.2 fun y hy hyL => hx (h.fresh y (hL hyL) hy ▸ hyL)
  have key : ∀ X ∈ C, (if x ∈ X then X ∪ V else X) ∩ L = X ∩ L := by
    intro X _
    split_ifs
    · rw [Finset.union_inter_distrib_right, Finset.disjoint_iff_inter_eq_empty.1 hLV, Finset.union_empty]
    · rfl
  ext Y
  rw [mem_trace, mem_trace]
  refine and_congr_right fun hne => ⟨?_, ?_⟩
  · rintro ⟨Z, hZ, rfl⟩
    rcases mem_expandAt.1 hZ with ⟨X, hX, rfl⟩ | hZD
    · exact ⟨X, hX, (key X hX).symm⟩
    · rw [Finset.disjoint_iff_inter_eq_empty.1 (hLV.mono_left (h.hierarchy.subset Z hZD))] at hne
      simp at hne
  · rintro ⟨X, hX, rfl⟩
    exact ⟨_, mem_expandAt.2 (Or.inl ⟨X, hX, rfl⟩), key X hX⟩

/-- **An expanded forest, restricted to the labels of the collapsed one**, is that forest. -/
theorem Expandable.trace_expandAt_self (h : Expandable S x V D) (hC : Hierarchy S C) :
    trace (expandAt x V D C) S = C := by
  have key : ∀ X ∈ C, (if x ∈ X then X ∪ V else X) ∩ S = X := by
    intro X hX
    ext y
    rw [Finset.mem_inter, h.mem_expanded_iff (hC.subset X hX)]
    constructor
    · rintro ⟨hy, hyS⟩
      rwa [h.into_self hyS] at hy
    · exact fun hy => ⟨by rwa [h.into_self (hC.subset X hX hy)], hC.subset X hX hy⟩
  ext Y
  rw [mem_trace]
  constructor
  · rintro ⟨⟨y, hy⟩, Z, hZ, rfl⟩
    rcases mem_expandAt.1 hZ with ⟨X, hX, rfl⟩ | hZD
    · rwa [key X hX]
    · -- of the subtree only its label is left
      have hsing : Z ∩ S = {x} := by
        refine Finset.eq_singleton_iff_nonempty_unique_mem.2 ⟨⟨y, hy⟩, fun z hz => ?_⟩
        rw [Finset.mem_inter] at hz
        exact h.fresh z hz.2 (h.hierarchy.subset Z hZD hz.1)
      rw [hsing]
      exact hC.singleton x h.mem
  · exact fun hY => ⟨hC.nonempty Y hY, _, mem_expandAt.2 (Or.inl ⟨Y, hY, rfl⟩), key Y hY⟩

end Expand

section Trace

variable {S : Finset α} {𝒞 : List (Finset (Finset α))} {f : α → β}

/-- **Agreement is inherited by the induced forests.** -/
theorem IsAgreement.trace {T : Finset α} (h : IsAgreement S 𝒞 f) (hT : T ⊆ S) :
    IsAgreement T (𝒞.map (trace · T)) f := by
  have hmono := h.mono hT
  refine ⟨fun C' hC' => ⟨fun y hy z hz hyz => ?_, fun Y hY b b' hb hb' => ?_⟩,
    fun C' hC' D' hD' y hy z hz w hw hyz hzw htri => ?_⟩
  · obtain ⟨C, hC, rfl⟩ := List.mem_map.1 hC'
    obtain ⟨X, hX, hyX, hzX⟩ := (hmono.embeds C hC).joined y hy z hz hyz
    exact ⟨X ∩ T, mem_trace.2 ⟨⟨y, Finset.mem_inter.2 ⟨hyX, hy⟩⟩, X, hX, rfl⟩, Finset.mem_inter.2 ⟨hyX, hy⟩,
      Finset.mem_inter.2 ⟨hzX, hz⟩⟩
  · obtain ⟨C, hC, rfl⟩ := List.mem_map.1 hC'
    obtain ⟨-, X, hX, rfl⟩ := mem_trace.1 hY
    have used : ∀ c, Used T f (X ∩ T) c → Used T f X c := by
      rintro c ⟨y, hy, z, hz, hyc, hzc, hyX, hzX⟩
      exact ⟨y, hy, z, hz, hyc, hzc, (Finset.mem_inter.1 hyX).1, fun hzX' => hzX (Finset.mem_inter.2 ⟨hzX', hz⟩)⟩
    exact (hmono.embeds C hC).disjoint X hX b b' (used b hb) (used b' hb')
  · obtain ⟨C, hC, rfl⟩ := List.mem_map.1 hC'
    obtain ⟨D, hD, rfl⟩ := List.mem_map.1 hD'
    rw [triple_trace hy hz hw] at htri ⊢
    exact hmono.agree C hC D hD y hy z hz w hw hyz hzw htri

/-- Agreement on fewer labels is agreement of the induced forests. -/
theorem IsAgreement.of_trace {T : Finset α} (h : IsAgreement T (𝒞.map (Maf.trace · T)) f) : IsAgreement T 𝒞 f := by
  have hmem : ∀ C ∈ 𝒞, Maf.trace C T ∈ 𝒞.map (Maf.trace · T) := fun C hC => List.mem_map_of_mem hC
  refine ⟨fun C hC => ⟨fun y hy z hz hyz => ?_, fun X hX b b' hb hb' => ?_⟩,
    fun C hC D hD y hy z hz w hw hyz hzw htri => ?_⟩
  · obtain ⟨Y, hY, hyY, hzY⟩ := (h.embeds _ (hmem C hC)).joined y hy z hz hyz
    obtain ⟨-, X, hX, rfl⟩ := mem_trace.1 hY
    exact ⟨X, hX, (Finset.mem_inter.1 hyY).1, (Finset.mem_inter.1 hzY).1⟩
  · have used : ∀ c, Used T f X c → Used T f (X ∩ T) c := by
      rintro c ⟨y, hy, z, hz, hyc, hzc, hyX, hzX⟩
      exact ⟨y, hy, z, hz, hyc, hzc, Finset.mem_inter.2 ⟨hyX, hy⟩, fun hmem => hzX (Finset.mem_inter.1 hmem).1⟩
    obtain ⟨y, hy, -, -, -, -, hyX, -⟩ := id hb
    have hXT : X ∩ T ∈ Maf.trace C T := mem_trace.2 ⟨⟨y, Finset.mem_inter.2 ⟨hyX, hy⟩⟩, X, hX, rfl⟩
    exact (h.embeds _ (hmem C hC)).disjoint _ hXT b b' (used b hb) (used b' hb')
  · have := h.agree _ (hmem C hC) _ (hmem D hD) y hy z hz w hw hyz hzw
    rw [triple_trace hy hz hw, triple_trace hy hz hw] at this
    exact this htri

/-- **A cut forest induces on the labels of one of its trees** what the forest induced. -/
theorem trace_cutAt {C : Finset (Finset α)} (h : Hierarchy S C) {U L : Finset α} (hU : U ∈ C)
    (hL : ∃ Y ∈ cutAt U C, L ⊆ Y) : trace (cutAt U C) L = trace C L := by
  -- a cluster loses `U` only where no label of `L` is in `U`, or all are
  have hor : Disjoint L U ∨ L ⊆ U := by
    obtain ⟨Y, hY, hLY⟩ := hL
    rcases mem_cutAt.1 hY with ⟨X, hX, hss, rfl⟩ | ⟨hYC, hss⟩
    · exact Or.inl (Finset.sdiff_disjoint.mono_left hLY)
    · rcases h.nested Y hYC U hU with hYU | hUY | hd
      · exact Or.inr (hLY.trans hYU)
      · have hYU : Y ⊆ U := by
          by_contra hno
          exact hss ⟨hUY, hno⟩
        exact Or.inr (hLY.trans hYU)
      · exact Or.inl (hd.mono_left hLY)
  have hsame : ∀ X : Finset α, Disjoint L U → (if U ⊂ X then X \ U else X) ∩ L = X ∩ L := by
    intro X hd
    split_ifs
    · ext y
      rw [Finset.mem_inter, Finset.mem_sdiff, Finset.mem_inter]
      exact ⟨fun hy => ⟨hy.1.1, hy.2⟩, fun hy => ⟨⟨hy.1, Finset.disjoint_left.1 hd hy.2⟩, hy.2⟩⟩
    · rfl
  have hself : (if U ⊂ U then U \ U else U) = U := if_neg (fun hss => hss.2 (Finset.Subset.refl U))
  ext Y
  rw [mem_trace, mem_trace]
  refine and_congr_right fun hne => ⟨?_, ?_⟩
  · rintro ⟨Z, hZ, rfl⟩
    obtain ⟨X, hX, rfl⟩ := Finset.mem_image.1 hZ
    rcases hor with hd | hLU
    · exact ⟨X, hX, (hsame X hd).symm⟩
    · split_ifs at hne ⊢ with hss
      · obtain ⟨y, hy⟩ := hne
        rw [Finset.mem_inter, Finset.mem_sdiff] at hy
        exact absurd (hLU hy.2) hy.1.2
      · exact ⟨X, hX, rfl⟩
  · rintro ⟨X, hX, rfl⟩
    rcases hor with hd | hLU
    · exact ⟨_, Finset.mem_image_of_mem _ hX, hsame X hd⟩
    · by_cases hss : U ⊂ X
      · -- a cluster above the cut held all of `L`, as `U` does
        refine ⟨U, ?_, ?_⟩
        · have := Finset.mem_image_of_mem (fun X => if U ⊂ X then X \ U else X) hU
          rwa [hself] at this
        · rw [Finset.inter_eq_right.2 hLU, Finset.inter_eq_right.2 (hLU.trans hss.1)]
      · refine ⟨X, ?_, rfl⟩
        have := Finset.mem_image_of_mem (fun X => if U ⊂ X then X \ U else X) hX
        rwa [if_neg hss] at this

/-- **An agreement forest that uses no cut edge** is one of the forests before the cut. -/
theorem IsAgreement.of_cutAt (h𝒞 : ∀ C ∈ 𝒞, Hierarchy S C) {i : ℕ} {C : Finset (Finset α)} {X : Finset α}
    (hi : 𝒞[i]? = some C) (hX : X ∈ C) (h : IsAgreement S (𝒞.set i (cutAt X C)) f) : IsAgreement S 𝒞 f := by
  obtain ⟨hlt, hget⟩ := List.getElem?_eq_some_iff.1 hi
  have hC : C ∈ 𝒞 := List.mem_of_getElem? hi
  have hcut : cutAt X C ∈ 𝒞.set i (cutAt X C) := List.mem_set hlt _
  obtain ⟨heC, hunused⟩ := (embeds_cutAt_iff (h𝒞 C hC) hX).1 (h.embeds _ hcut)
  -- every forest is there, or is the one that was cut
  have hmem : ∀ D ∈ 𝒞, D = C ∨ D ∈ 𝒞.set i (cutAt X C) := by
    intro D hD
    obtain ⟨j, hj, rfl⟩ := List.mem_iff_getElem.1 hD
    by_cases hij : i = j
    · exact Or.inl (by subst hij; exact hget)
    · exact Or.inr (List.mem_iff_getElem.2 ⟨j, by simpa using hj, List.getElem_set_of_ne hij ..⟩)
  have htri : ∀ D ∈ 𝒞, ∃ D' ∈ 𝒞.set i (cutAt X C), ∀ y ∈ S, ∀ z ∈ S, ∀ w ∈ S, f y = f z → f z = f w →
      (Triple D' y z w ↔ Triple D y z w) := by
    intro D hD
    rcases hmem D hD with rfl | hD'
    · exact ⟨_, hcut, fun y hy z hz w hw hyz hzw => triple_cutAt hunused hy hz hw (hyz.trans hzw) hzw⟩
    · exact ⟨D, hD', fun _ _ _ _ _ _ _ _ => Iff.rfl⟩
  refine ⟨fun D hD => ?_, fun D hD E hE y hy z hz w hw hyz hzw ht => ?_⟩
  · rcases hmem D hD with rfl | hD'
    · exact heC
    · exact h.embeds D hD'
  · obtain ⟨D', hD', hDD'⟩ := htri D hD
    obtain ⟨E', hE', hEE'⟩ := htri E hE
    refine (hEE' y hy z hz w hw hyz hzw).1 (h.agree D' hD' E' hE' y hy z hz w hw hyz hzw ?_)
    exact (hDD' y hy z hz w hw hyz hzw).2 ht

end Trace

end Maf
