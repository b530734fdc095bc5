/-
# Exchanging blocks of an agreement forest

The branching rules and the reductions change an agreement forest locally: some
labels `Z` become singletons, and the labels `Y` of a subtree that is then
pendant in every forest join the block of one of them (`regroup`).  The result
is an agreement forest again (`IsAgreement.regroup`), with no more blocks if
enough labels of `Y` were singletons before (`card_regroup_le`).

Two facts say when labels are singletons: of a cherry whose labels lie in
different blocks one is (`isolated_or_of_cherry`), and so is a label between the
two when they share their block (`isolated_of_between`).  Hence cutting off one
label between a cherry (`IsAgreement.exists_isolate`), or two with a common uncle
(`IsAgreement.exists_isolate_two`), costs nothing.
-/

import Maf.Agreement

namespace Maf

variable {α β γ : Type*}

/-- The label `z` is a block of its own. -/
def Isolated (S : Finset α) (f : α → β) (z : α) : Prop := ∀ x ∈ S, f x = f z → x = z

/-- Blocks may be restricted to fewer labels. -/
theorem IsAgreement.mono {S T : Finset α} {𝒞 : List (Finset (Finset α))} {f : α → β}
    (h : IsAgreement S 𝒞 f) (hT : T ⊆ S) : IsAgreement T 𝒞 f := by
  have used : ∀ {X b}, Used T f X b → Used S f X b := by
    rintro X b ⟨x, hx, y, hy, hxy⟩
    exact ⟨x, hT hx, y, hT hy, hxy⟩
  refine ⟨fun C hC => ⟨fun x hx y hy => ?_, fun X hX b b' hb hb' => ?_⟩, fun C hC D hD x hx y hy z hz => ?_⟩
  · exact (h.embeds C hC).joined x (hT hx) y (hT hy)
  · exact (h.embeds C hC).disjoint X hX b b' (used hb) (used hb')
  · exact h.agree C hC D hD x (hT hx) y (hT hy) z (hT hz)

variable [DecidableEq α]

/-- No block uses the edge above a label exactly when the label is a singleton. -/
theorem not_used_singleton_iff {S : Finset α} {f : α → β} {z : α} (hz : z ∈ S) :
    (∀ b, ¬Used S f {z} b) ↔ Isolated S f z := by
  constructor
  · intro h x hx hxz
    by_contra hne
    exact h (f z) ⟨z, hz, x, hx, rfl, hxz, by simp, by simpa using hne⟩
  · rintro h b ⟨x, -, y, hy, rfl, hxy, hxz, hyz⟩
    obtain rfl := Finset.mem_singleton.1 hxz
    exact hyz (Finset.mem_singleton.2 (h y hy hxy))

/-- **Cutting a label off in every forest makes it a singleton** and forbids
nothing else. -/
theorem isAgreement_cutAt_singleton_iff {S : Finset α} {𝒞 : List (Finset (Finset α))} {f : α → β}
    (h𝒞 : ∀ C ∈ 𝒞, Hierarchy S C) (hne : 𝒞 ≠ []) {z : α} (hz : z ∈ S) :
    IsAgreement S (𝒞.map (cutAt {z})) f ↔ IsAgreement S 𝒞 f ∧ Isolated S f z := by
  have hsing : ∀ C ∈ 𝒞, {z} ∈ C := fun C hC => (h𝒞 C hC).singleton z hz
  have key : ∀ C ∈ 𝒞, Embeds S (cutAt {z} C) f ↔ Embeds S C f ∧ Isolated S f z := fun C hC => by
    rw [embeds_cutAt_iff (h𝒞 C hC) (hsing C hC), not_used_singleton_iff hz]
  constructor
  · intro h
    have hiso : Isolated S f z := by
      obtain ⟨C, hC⟩ := List.exists_mem_of_ne_nil 𝒞 hne
      exact ((key C hC).1 (h.embeds _ (List.mem_map_of_mem hC))).2
    refine ⟨⟨fun C hC => ((key C hC).1 (h.embeds _ (List.mem_map_of_mem hC))).1, ?_⟩, hiso⟩
    intro C hC D hD x hx y hy w hw hxy hyw htri
    have hunused := (not_used_singleton_iff hz).2 hiso
    refine (triple_cutAt hunused hx hy hw (hxy.trans hyw) hyw).1 ?_
    exact h.agree _ (List.mem_map_of_mem hC) _ (List.mem_map_of_mem hD) x hx y hy w hw hxy hyw
      ((triple_cutAt hunused hx hy hw (hxy.trans hyw) hyw).2 htri)
  · rintro ⟨h, hiso⟩
    have hunused := (not_used_singleton_iff hz).2 hiso
    refine ⟨fun C' hC' => ?_, fun C' hC' D' hD' x hx y hy w hw hxy hyw htri => ?_⟩
    · obtain ⟨C, hC, rfl⟩ := List.mem_map.1 hC'
      exact (key C hC).2 ⟨h.embeds C hC, hiso⟩
    · obtain ⟨C, hC, rfl⟩ := List.mem_map.1 hC'
      obtain ⟨D, hD, rfl⟩ := List.mem_map.1 hD'
      refine (triple_cutAt hunused hx hy hw (hxy.trans hyw) hyw).2 ?_
      exact h.agree C hC D hD x hx y hy w hw hxy hyw
        ((triple_cutAt hunused hx hy hw (hxy.trans hyw) hyw).1 htri)

/-- Makes the labels of `Z` singletons and lets those of `Y` join the block of
`y`. -/
def regroup (f : α → β) (Y Z : Finset α) (y x : α) : β ⊕ α :=
  if x ∈ Z then .inr x else if x ∈ Y then .inl (f y) else .inl (f x)

/-- A label that is regrouped to itself is isolated. -/
theorem isolated_regroup {S : Finset α} {f : α → β} {Y Z : Finset α} {y z : α} (hz : z ∈ Z) :
    Isolated S (regroup f Y Z y) z := by
  intro x _ hx
  unfold regroup at hx
  rw [if_pos hz] at hx
  split_ifs at hx
  · exact Sum.inr.inj hx

/-- The label that stands for `x` in the old blocks. -/
def standIn (Y : Finset α) (y x : α) : α := if x ∈ Y then y else x

/-- One label stands for all of `Y`. -/
theorem standIn_of_mem {Y : Finset α} {y x : α} (h : x ∈ Y) : standIn Y y x = y := if_pos h

/-- The other labels stand for themselves. -/
theorem standIn_of_notMem {Y : Finset α} {y x : α} (h : x ∉ Y) : standIn Y y x = x := if_neg h

/-- Regrouped blocks are equal when the old ones are. -/
theorem regroup_eq_iff {f : α → β} {Y Z : Finset α} {y x w : α} (hx : x ∉ Z) (hw : w ∉ Z) :
    regroup f Y Z y x = regroup f Y Z y w ↔ f (standIn Y y x) = f (standIn Y y w) := by
  unfold regroup standIn
  rw [if_neg hx, if_neg hw]
  split_ifs <;> exact Sum.inl_injective.eq_iff

section Regroup

variable {S : Finset α} {𝒞 : List (Finset (Finset α))} {f : α → β} {Y Z : Finset α} {y : α}

/-- Inside the pendant subtree `X` there are the labels of `Y`, apart from `Z`. -/
theorem mem_of_mem_pendant {X : Finset α} (hX : X \ Z = Y) {x : α} (hx : x ∉ Z) : x ∈ X ↔ x ∈ Y := by
  rw [← hX, Finset.mem_sdiff]
  exact ⟨fun h => ⟨h, hx⟩, And.left⟩

/-- Two different labels of a regrouped block are not in `Z`. -/
theorem notMem_of_regroup_eq {x w : α} (h : regroup f Y Z y x = regroup f Y Z y w) (hne : x ≠ w)
    (hx : x ∈ S) (hw : w ∈ S) : x ∉ Z ∧ w ∉ Z :=
  ⟨fun hz => hne ((isolated_regroup hz w hw h.symm).symm), fun hz => hne (isolated_regroup hz x hx h)⟩

variable {C D : Finset (Finset α)} {X X' : Finset α}

/-- An edge that is not inside the pendant subtree was used by the old block when a
regrouped one uses it. -/
theorem used_of_regroup (hC : Hierarchy S C) (hyS : y ∈ S) (hy : y ∈ Y) (hX : X ∈ C) (hXY : X \ Z = Y)
    {W : Finset α} (hW : W ∈ C) (hWX : ¬W ⊆ X) {x w : α} (hx : x ∈ S) (hw : w ∈ S) (hxZ : x ∉ Z) (hwZ : w ∉ Z)
    (hwx : f (standIn Y y w) = f (standIn Y y x)) (hxW : x ∈ W) (hwW : w ∉ W) :
    Used S f W (f (standIn Y y x)) := by
  have hyX : y ∈ X := (Finset.mem_sdiff.1 (hXY ▸ hy)).1
  have hS : ∀ {z}, z ∈ S → standIn Y y z ∈ S := fun {z} hz => by
    unfold standIn
    split_ifs <;> assumption
  refine ⟨_, hS hx, _, hS hw, rfl, hwx, ?_, ?_⟩
  · by_cases hxY : x ∈ Y
    · rw [standIn_of_mem hxY]
      exact (hC.nested_of_mem hW hX hxW ((mem_of_mem_pendant hXY hxZ).2 hxY)).resolve_left hWX hyX
    · rwa [standIn_of_notMem hxY]
  · by_cases hwY : w ∈ Y
    · rw [standIn_of_mem hwY]
      intro hyW
      refine hwW ((hC.nested_of_mem hW hX hyW hyX).resolve_left hWX ?_)
      exact (mem_of_mem_pendant hXY hwZ).2 hwY
    · rwa [standIn_of_notMem hwY]

/-- Regrouped blocks lie in the trees of the forest, and use its edges apart. -/
theorem embeds_regroup (hC : Hierarchy S C) (he : Embeds S C f) (hyS : y ∈ S) (hy : y ∈ Y) (hX : X ∈ C)
    (hXY : X \ Z = Y) : Embeds S C (Maf.regroup f Y Z y) := by
  refine ⟨fun x hx w hw hxw => ?_, fun W hW b b' hb hb' => ?_⟩
  · by_cases hne : x = w
    · exact ⟨{x}, hC.singleton x hx, by simp, by simp [hne]⟩
    obtain ⟨hxZ, hwZ⟩ := notMem_of_regroup_eq hxw hne hx hw
    rw [regroup_eq_iff hxZ hwZ] at hxw
    have mixed : ∀ {x w}, w ∈ S → x ∉ Z → w ∉ Z → x ∈ Y → w ∉ Y → f (standIn Y y x) = f (standIn Y y w) →
        ∃ W ∈ C, x ∈ W ∧ w ∈ W := by
      intro x w hw hxZ hwZ hxY hwY hxw
      rw [standIn_of_mem hxY, standIn_of_notMem hwY] at hxw
      obtain ⟨W, hW, hyW, hwW⟩ := he.joined y hyS w hw hxw
      have hsub := hC.subset_of_mem hX hW (Finset.mem_sdiff.1 (hXY ▸ hy)).1 hyW hwW
        fun hwX => hwY ((mem_of_mem_pendant hXY hwZ).1 hwX)
      exact ⟨W, hW, hsub ((mem_of_mem_pendant hXY hxZ).2 hxY), hwW⟩
    by_cases hxY : x ∈ Y <;> by_cases hwY : w ∈ Y
    · exact ⟨X, hX, (mem_of_mem_pendant hXY hxZ).2 hxY, (mem_of_mem_pendant hXY hwZ).2 hwY⟩
    · exact mixed hw hxZ hwZ hxY hwY hxw
    · obtain ⟨W, hW, hwW, hxW⟩ := mixed hx hwZ hxZ hwY hxY hxw.symm
      exact ⟨W, hW, hxW, hwW⟩
    · rw [standIn_of_notMem hxY, standIn_of_notMem hwY] at hxw
      exact he.joined x hx w hw hxw
  · obtain ⟨x, hx, w, hw, rfl, hwx, hxW, hwW⟩ := hb
    obtain ⟨x', hx', w', hw', rfl, hwx', hxW', hwW'⟩ := hb'
    obtain ⟨hwZ, hxZ⟩ := notMem_of_regroup_eq hwx (fun he => hwW (he ▸ hxW)) hw hx
    obtain ⟨hwZ', hxZ'⟩ := notMem_of_regroup_eq hwx' (fun he => hwW' (he ▸ hxW')) hw' hx'
    rw [regroup_eq_iff hwZ hxZ] at hwx
    rw [regroup_eq_iff hwZ' hxZ'] at hwx'
    rw [regroup_eq_iff hxZ hxZ']
    -- an edge inside the subtree is used by the block of `y` only
    by_cases hWX : W ⊆ X
    · rw [standIn_of_mem ((mem_of_mem_pendant hXY hxZ).1 (hWX hxW)),
        standIn_of_mem ((mem_of_mem_pendant hXY hxZ').1 (hWX hxW'))]
    · exact he.disjoint W hW _ _ (used_of_regroup hC hyS hy hX hXY hW hWX hx hw hxZ hwZ hwx hxW hwW)
        (used_of_regroup hC hyS hy hX hXY hW hWX hx' hw' hxZ' hwZ' hwx' hxW' hwW')

/-- A triple whose third label is in the pendant subtree: all three are, or `y`
stands for the third. -/
theorem triple_regroup_of_mem (hC : Hierarchy S C) (hD : Hierarchy S D) (hag : Agrees S C D f) (hyS : y ∈ S)
    (hy : y ∈ Y) (hX : X ∈ C) (hXY : X \ Z = Y) (hX' : X' ∈ D) (hXY' : X' \ Z = Y)
    (hY : ∀ a ∈ Y, ∀ b ∈ Y, ∀ c ∈ Y, Triple C a b c → Triple D a b c) {a b c : α} (ha : a ∈ S) (hb : b ∈ S)
    (haZ : a ∉ Z) (hbZ : b ∉ Z) (hcZ : c ∉ Z) (hab : f (standIn Y y a) = f (standIn Y y b))
    (hbc : f (standIn Y y b) = f (standIn Y y c)) (htri : Triple C a b c) (hcY : c ∈ Y) : Triple D a b c := by
  obtain ⟨W, hW, haW, hbW, hcW⟩ := htri
  have mem : ∀ {x}, x ∉ Z → (x ∈ X ↔ x ∈ Y) := mem_of_mem_pendant hXY
  have mem' : ∀ {x}, x ∉ Z → (x ∈ X' ↔ x ∈ Y) := mem_of_mem_pendant hXY'
  have hyX : y ∈ X := (Finset.mem_sdiff.1 (hXY ▸ hy)).1
  -- a label of the subtree and one outside it have `c` with them
  have around : ∀ {u w}, u ∈ X → u ∈ W → w ∉ Z → w ∈ W → w ∈ Y := fun hu huW hwZ hwW => by
    by_contra hwY
    exact hcW (hC.subset_of_mem hX hW hu huW hwW (fun hwX => hwY ((mem hwZ).1 hwX)) ((mem hcZ).2 hcY))
  by_cases haY : a ∈ Y
  · exact hY a haY b (around ((mem haZ).2 haY) haW hbZ hbW) c hcY ⟨W, hW, haW, hbW, hcW⟩
  · have hbY : b ∉ Y := fun hbY => haY (around ((mem hbZ).2 hbY) hbW haZ haW)
    rw [standIn_of_notMem haY, standIn_of_notMem hbY] at hab
    rw [standIn_of_notMem hbY, standIn_of_mem hcY] at hbc
    have hyW : y ∉ W := fun hyW => haY (around hyX hyW haZ haW)
    obtain ⟨W', hW', haW', hbW', hyW'⟩ := hag a ha b hb y hyS hab hbc ⟨W, hW, haW, hbW, hyW⟩
    refine ⟨W', hW', haW', hbW', fun hcW' => hyW' ?_⟩
    exact hD.subset_of_mem hX' hW' ((mem' hcZ).2 hcY) hcW' haW' (fun haX => haY ((mem' haZ).1 haX))
      (Finset.mem_sdiff.1 (hXY' ▸ hy)).1

/-- A triple whose third label is outside: `y` stands for one of the other two at most. -/
theorem triple_regroup_of_notMem (hC : Hierarchy S C) (hD : Hierarchy S D) (hag : Agrees S C D f) (hyS : y ∈ S)
    (hy : y ∈ Y) (hX : X ∈ C) (hXY : X \ Z = Y) (hX' : X' ∈ D) (hXY' : X' \ Z = Y) {a b c : α} (ha : a ∈ S)
    (hb : b ∈ S) (hc : c ∈ S) (haZ : a ∉ Z) (hbZ : b ∉ Z) (hcZ : c ∉ Z)
    (hab : f (standIn Y y a) = f (standIn Y y b)) (hbc : f (standIn Y y b) = f (standIn Y y c))
    (htri : Triple C a b c) (hcY : c ∉ Y) : Triple D a b c := by
  obtain ⟨W, hW, haW, hbW, hcW⟩ := htri
  have mem : ∀ {x}, x ∉ Z → (x ∈ X ↔ x ∈ Y) := mem_of_mem_pendant hXY
  have mem' : ∀ {x}, x ∉ Z → (x ∈ X' ↔ x ∈ Y) := mem_of_mem_pendant hXY'
  have inner : ∀ {a b}, b ∈ S → a ∉ Z → b ∉ Z → a ∈ Y → b ∉ Y → a ∈ W → b ∈ W →
      f (standIn Y y a) = f (standIn Y y b) → f (standIn Y y b) = f (standIn Y y c) → Triple D a b c := by
    intro a b hb haZ hbZ haY hbY haW hbW hab hbc
    rw [standIn_of_mem haY, standIn_of_notMem hbY] at hab
    rw [standIn_of_notMem hbY, standIn_of_notMem hcY] at hbc
    have hyW : y ∈ W := hC.subset_of_mem hX hW ((mem haZ).2 haY) haW hbW (fun hbX => hbY ((mem hbZ).1 hbX))
      (Finset.mem_sdiff.1 (hXY ▸ hy)).1
    obtain ⟨W', hW', hyW', hbW', hcW'⟩ := hag y hyS b hb c hc hab hbc ⟨W, hW, hyW, hbW, hcW⟩
    refine ⟨W', hW', ?_, hbW', hcW'⟩
    exact hD.subset_of_mem hX' hW' (Finset.mem_sdiff.1 (hXY' ▸ hy)).1 hyW' hbW'
      (fun hbX => hbY ((mem' hbZ).1 hbX)) ((mem' haZ).2 haY)
  by_cases haY : a ∈ Y <;> by_cases hbY : b ∈ Y
  · exact ⟨X', hX', (mem' haZ).2 haY, (mem' hbZ).2 hbY, fun h => hcY ((mem' hcZ).1 h)⟩
  · exact inner hb haZ hbZ haY hbY haW hbW hab hbc
  · obtain ⟨W', hW', hbW', haW', hcW'⟩ := inner ha hbZ haZ hbY haY hbW haW hab.symm (hab.trans hbc)
    exact ⟨W', hW', haW', hbW', hcW'⟩
  · rw [standIn_of_notMem haY, standIn_of_notMem hbY] at hab
    rw [standIn_of_notMem hbY, standIn_of_notMem hcY] at hbc
    exact hag a ha b hb c hc hab hbc ⟨W, hW, haW, hbW, hcW⟩

/-- **The regrouped blocks are an agreement forest**, when `Y` is what the same
pendant subtree of every forest holds apart from `Z`. -/
theorem IsAgreement.regroup (h𝒞 : ∀ C ∈ 𝒞, Hierarchy S C) (h : IsAgreement S 𝒞 f) (hyS : y ∈ S)
    (hy : y ∈ Y) (hX : ∀ C ∈ 𝒞, ∃ X ∈ C, X \ Z = Y)
    (hY : ∀ C ∈ 𝒞, ∀ D ∈ 𝒞, ∀ a ∈ Y, ∀ b ∈ Y, ∀ c ∈ Y, Triple C a b c → Triple D a b c) :
    IsAgreement S 𝒞 (regroup f Y Z y) := by
  refine ⟨fun C hC => ?_, fun C hC D hD a ha b hb c hc hab hbc htri => ?_⟩
  · obtain ⟨X, hXC, hXY⟩ := hX C hC
    exact embeds_regroup (h𝒞 C hC) (h.embeds C hC) hyS hy hXC hXY
  · obtain ⟨X, hXC, hXY⟩ := hX C hC
    obtain ⟨X', hXD, hXY'⟩ := hX D hD
    obtain ⟨W, hW, haW, hbW, hcW⟩ := htri
    obtain ⟨haZ, hcZ⟩ := notMem_of_regroup_eq (hab.trans hbc) (fun he => hcW (he ▸ haW)) ha hc
    obtain ⟨hbZ, -⟩ := notMem_of_regroup_eq hbc (fun he => hcW (he ▸ hbW)) hb hc
    rw [regroup_eq_iff haZ hbZ] at hab
    rw [regroup_eq_iff hbZ hcZ] at hbc
    by_cases hcY : c ∈ Y
    · exact triple_regroup_of_mem (h𝒞 C hC) (h𝒞 D hD) (h.agree C hC D hD) hyS hy hXC hXY hXD hXY' (hY C hC D hD)
        ha hb haZ hbZ hcZ hab hbc ⟨W, hW, haW, hbW, hcW⟩ hcY
    · exact triple_regroup_of_notMem (h𝒞 C hC) (h𝒞 D hD) (h.agree C hC D hD) hyS hy hXC hXY hXD hXY' ha hb hc
        haZ hbZ hcZ hab hbc ⟨W, hW, haW, hbW, hcW⟩ hcY

/-- **Regrouping adds no more blocks than `Z` has labels**, and loses the blocks
that lie in a set `Q` of labels of `Y` and `Z`. -/
theorem card_regroup_le [DecidableEq β] {Q : Finset α} (hQS : Q ⊆ S) (hQ : Q ⊆ Y ∪ Z)
    (hclosed : ∀ q ∈ Q, ∀ x ∈ S, f x = f q → x ∈ Q) (hyS : y ∈ S) (hyQ : y ∉ Q) :
    (S.image (Maf.regroup f Y Z y)).card + (Q.image f).card ≤ (S.image f).card + Z.card := by
  have hsub : S.image (Maf.regroup f Y Z y) ⊆
      Z.image Sum.inr ∪ ((S \ Q).image f).image Sum.inl := by
    intro b hb
    obtain ⟨x, hx, rfl⟩ := Finset.mem_image.1 hb
    rw [Finset.mem_union]
    unfold Maf.regroup
    split_ifs with hxZ hxY
    · exact Or.inl (Finset.mem_image_of_mem _ hxZ)
    · refine Or.inr (Finset.mem_image_of_mem _ (Finset.mem_image_of_mem _ ?_))
      exact Finset.mem_sdiff.2 ⟨hyS, hyQ⟩
    · refine Or.inr (Finset.mem_image_of_mem _ (Finset.mem_image_of_mem _ ?_))
      exact Finset.mem_sdiff.2 ⟨hx, fun hxQ => (Finset.mem_union.1 (hQ hxQ)).elim hxY hxZ⟩
  have hcard : ((S \ Q).image f).card + (Q.image f).card = (S.image f).card := by
    have hdis : Disjoint ((S \ Q).image f) (Q.image f) := by
      refine Finset.disjoint_left.2 fun b hb hb' => ?_
      obtain ⟨x, hx, rfl⟩ := Finset.mem_image.1 hb
      obtain ⟨q, hq, hqx⟩ := Finset.mem_image.1 hb'
      rw [Finset.mem_sdiff] at hx
      exact hx.2 (hclosed q hq x hx.1 hqx.symm)
    rw [← Finset.card_union_of_disjoint hdis, ← Finset.image_union,
      Finset.sdiff_union_of_subset hQS]
  have h₁ := Finset.card_le_card hsub
  have h₂ := Finset.card_union_le (Z.image (Sum.inr : α → β ⊕ α))
    (((S \ Q).image f).image Sum.inl)
  have h₃ : (Z.image (Sum.inr : α → β ⊕ α)).card ≤ Z.card := Finset.card_image_le
  have h₄ : (((S \ Q).image f).image (Sum.inl : β → β ⊕ α)).card ≤ ((S \ Q).image f).card :=
    Finset.card_image_le
  omega

end Regroup

section Cherry

variable {S : Finset α} {C D : Finset (Finset α)} {f : α → β} {a c : α}

/-- **Of a cherry whose labels lie in different blocks one is a singleton.** -/
theorem isolated_or_of_cherry (he : Embeds S C f) (hX : {a, c} ∈ C) (ha : a ∈ S) (hc : c ∈ S)
    (hne : f a ≠ f c) : Isolated S f a ∨ Isolated S f c := by
  by_contra hboth
  rw [not_or] at hboth
  unfold Isolated at hboth
  push Not at hboth
  obtain ⟨⟨x, hx, hfx, hxa⟩, w, hw, hfw, hwc⟩ := hboth
  refine hne (he.disjoint _ hX _ _ ⟨a, ha, x, hx, rfl, hfx, by simp, ?_⟩
    ⟨c, hc, w, hw, rfl, hfw, by simp, ?_⟩)
  · simp only [Finset.mem_insert, Finset.mem_singleton, not_or]
    exact ⟨hxa, fun h => hne (h ▸ hfx).symm⟩
  · simp only [Finset.mem_insert, Finset.mem_singleton, not_or]
    exact ⟨fun h => hne (h ▸ hfw), hwc⟩

/-- **A block that meets the path between two labels of another block** inside a
cluster stays inside the cluster, and has not their labels, if elsewhere the two
are closer to each other. -/
theorem block_subset_of_between (hC : Hierarchy S C) {X : Finset α} (hX : X ∈ C) (haX : a ∈ X)
    (hcX : c ∈ X) (he : Embeds S D f) (hag : Agrees S D C f) {b : α} (ha : a ∈ S) (hc : c ∈ S)
    (hb : b ∈ S) (hbX : b ∉ X) {V : Finset α} (hV : V ∈ D) (haV : a ∈ V) (hcV : c ∉ V) (hbV : b ∈ V)
    (hac : f a = f c) : f b ≠ f a ∧ ∀ w ∈ S, f w = f b → w ∈ V := by
  have hfb : f b ≠ f a := by
    intro hfb
    obtain ⟨W, hW, haW, hbW, hcW⟩ := hag a ha b hb c hc hfb.symm (hfb.trans hac) ⟨V, hV, haV, hbV, hcV⟩
    exact hcW (hC.subset_of_mem hX hW haX haW hbW hbX hcX)
  refine ⟨hfb, fun w hw hfw => ?_⟩
  by_contra hwV
  exact hfb (he.disjoint V hV _ _ ⟨b, hb, w, hw, rfl, hfw, hbV, hwV⟩
    ⟨a, ha, c, hc, rfl, hac.symm, haV, hcV⟩)

/-- `W` hangs from the path between `a` and `c`: next to it is a child `P` with one
of the two below, and the other lies outside. -/
def Pendant (C : Finset (Finset α)) (a c : α) (W : Finset α) : Prop :=
  W ∈ C ∧ ∃ P ∈ C, P ∪ W ∈ C ∧ Disjoint P W ∧ (a ∈ P ∧ c ∉ P ∪ W ∨ c ∈ P ∧ a ∉ P ∪ W)

/-- What hangs off a path does not depend on its direction. -/
theorem Pendant.symm {C : Finset (Finset α)} {a c : α} {W : Finset α} (h : Pendant C a c W) :
    Pendant C c a W := by
  obtain ⟨hW, P, hP, hPW, hd, hor⟩ := h
  exact ⟨hW, P, hP, hPW, hd, hor.symm⟩

/-- The ends of a path do not hang off it. -/
theorem Pendant.notMem {W : Finset α} (h : Pendant C a c W) : a ∉ W ∧ c ∉ W := by
  obtain ⟨-, P, -, -, hd, ⟨h₁, h₂⟩ | ⟨h₁, h₂⟩⟩ := h
  · exact ⟨Finset.disjoint_left.1 hd h₁, fun h => h₂ (Finset.mem_union_right _ h)⟩
  · exact ⟨fun h => h₂ (Finset.mem_union_right _ h), Finset.disjoint_left.1 hd h₁⟩

/-- **Two subtrees that hang from the path are the same or apart.** -/
theorem Pendant.eq_or_disjoint (hC : Hierarchy S C) {V W : Finset α} (hV : Pendant C a c V) (hW : Pendant C a c W) :
    V = W ∨ Disjoint V W := by
  have key : ∀ {V W : Finset α}, Pendant C a c V → Pendant C a c W → ¬V ⊂ W := by
    intro V W hV hW hVW
    obtain ⟨hVC, P, hP, hPV, hd, hor⟩ := hV
    have hsub := hC.union_subset_of_ssubset hP hVC hPV hd hW.1 hVW
    rcases hor with ⟨h, -⟩ | ⟨h, -⟩
    · exact hW.notMem.1 (hsub (Finset.mem_union_left _ h))
    · exact hW.notMem.2 (hsub (Finset.mem_union_left _ h))
  rcases hC.nested V hV.1 W hW.1 with h | h | h
  · exact Or.inl (h.eq_of_not_ssubset (key hV hW))
  · exact Or.inl (h.eq_of_not_ssubset (key hW hV)).symm
  · exact Or.inr h

/-- What hangs from the path lies in every cluster that holds both ends. -/
theorem Pendant.subset (hC : Hierarchy S C) {V T : Finset α} (hV : Pendant C a c V) (hT : T ∈ C) (ha : a ∈ T)
    (hc : c ∈ T) : V ⊆ T := by
  obtain ⟨-, P, -, hPV, -, ⟨h₁, h₂⟩ | ⟨h₁, h₂⟩⟩ := hV
  · exact Finset.union_subset_right (hC.subset_of_mem hPV hT (Finset.mem_union_left _ h₁) ha hc h₂)
  · exact Finset.union_subset_right (hC.subset_of_mem hPV hT (Finset.mem_union_left _ h₁) hc ha h₂)

/-- **No block leaves a subtree between the two labels of a cherry when they share
their block.** -/
theorem unused_of_pendant (hC : Hierarchy S C) (hX : {a, c} ∈ C) (he : Embeds S D f)
    (hag : Agrees S D C f) (ha : a ∈ S) (hc : c ∈ S) {W : Finset α} (hW : Pendant D a c W)
    (hac : f a = f c) (b : β) : ¬Used S f W b := by
  have key : ∀ {a c : α}, {a, c} ∈ C → a ∈ S → c ∈ S → f a = f c → ∀ {P}, P ∈ D → P ∪ W ∈ D →
      Disjoint P W → a ∈ P → c ∉ P ∪ W → ¬Used S f W b := by
    rintro a c hX ha hc hac P hP hPW hd haP hcPW ⟨x, hx, y, hy, rfl, hxy, hxW, hyW⟩
    have hcP : c ∉ P := fun h => hcPW (Finset.mem_union_left _ h)
    have hxX : x ∉ ({a, c} : Finset α) := by
      simp only [Finset.mem_insert, Finset.mem_singleton, not_or]
      exact ⟨fun h => Finset.disjoint_left.1 hd haP (h ▸ hxW),
        fun h => hcPW (Finset.mem_union_right _ (h ▸ hxW))⟩
    obtain ⟨hfx, hsub⟩ := block_subset_of_between hC hX (by simp) (by simp) he hag ha hc hx hxX hPW
      (Finset.mem_union_left _ haP) hcPW (Finset.mem_union_right _ hxW) hac
    -- so the block uses the edge above `P`, which the other block uses too
    have hyP : y ∈ P := (Finset.mem_union.1 (hsub y hy hxy)).resolve_right hyW
    exact hfx (he.disjoint P hP _ _ ⟨y, hy, x, hx, hxy, rfl, hyP,
      fun h => Finset.disjoint_left.1 hd h hxW⟩ ⟨a, ha, c, hc, rfl, hac.symm, haP, hcP⟩)
  obtain ⟨-, P, hP, hPW, hd, ⟨haP, hcP⟩ | ⟨hcP, haP⟩⟩ := hW
  · exact key hX ha hc hac hP hPW hd haP hcP
  · exact key (Finset.pair_comm a c ▸ hX) hc ha hac.symm hP hPW hd hcP haP

/-- The labels `B` are all there is between `a` and `c`. -/
structure Between (C : Finset (Finset α)) (a c : α) (B : Finset α) : Prop where
  cluster : {a, c} ∪ B ∈ C
  pendant : ∀ b ∈ B, Pendant C a c {b}

/-- Labels between the two are other labels. -/
theorem Between.notMem {C : Finset (Finset α)} {a c : α} {B : Finset α} (h : Between C a c B) :
    a ∉ B ∧ c ∉ B := by
  have key : ∀ {b}, b ∈ B → b ≠ a ∧ b ≠ c := by
    intro b hb
    obtain ⟨-, P, -, -, hd, hor⟩ := h.pendant b hb
    have hbP : b ∉ P := Finset.disjoint_singleton_right.1 hd
    rcases hor with ⟨h₁, h₂⟩ | ⟨h₁, h₂⟩
    · exact ⟨fun he => hbP (he ▸ h₁), fun he => h₂ (he ▸ by simp)⟩
    · exact ⟨fun he => h₂ (he ▸ by simp), fun he => hbP (he ▸ h₁)⟩
  exact ⟨fun ha => (key ha).1 rfl, fun hc => (key hc).2 rfl⟩

/-- Apart from the labels between them the two are a cherry. -/
theorem Between.exists_sdiff {C : Finset (Finset α)} {a c : α} {B Z : Finset α}
    (h : Between C a c B) (hBZ : B ⊆ Z) (ha : a ∉ Z) (hc : c ∉ Z) : ∃ X ∈ C, X \ Z = {a, c} := by
  refine ⟨_, h.cluster, ?_⟩
  rw [Finset.union_sdiff_distrib, Finset.sdiff_eq_empty_iff_subset.2 hBZ, Finset.union_empty]
  refine Finset.sdiff_eq_self_of_disjoint (Finset.disjoint_left.2 fun w hw => ?_)
  rcases Finset.mem_insert.1 hw with rfl | hw
  · exact ha
  · rwa [Finset.mem_singleton.1 hw]

/-- **The labels between a cherry are singletons when it shares its block.** -/
theorem isolated_of_between (hC : Hierarchy S C) (hX : {a, c} ∈ C) (he : Embeds S D f)
    (hag : Agrees S D C f) (ha : a ∈ S) (hc : c ∈ S) {B : Finset α} (hB : Between D a c B)
    (hac : f a = f c) {b : α} (hb : b ∈ B) (hbS : b ∈ S) : Isolated S f b :=
  (not_used_singleton_iff hbS).1 (unused_of_pendant hC hX he hag ha hc (hB.pendant b hb) hac)

end Cherry

section Exchange

variable [DecidableEq β] {S : Finset α} {𝒞 : List (Finset (Finset α))} {f : α → β} {a c x b b₁ b₂ : α}

omit [DecidableEq β] in
/-- Two labels have the same triples everywhere. -/
theorem triple_pair (h𝒞 : ∀ C ∈ 𝒞, Hierarchy S C) (ha : a ∈ S) (hc : c ∈ S) :
    ∀ C ∈ 𝒞, ∀ D ∈ 𝒞, ∀ u ∈ ({a, c} : Finset α), ∀ v ∈ ({a, c} : Finset α),
      ∀ w ∈ ({a, c} : Finset α), Triple C u v w → Triple D u v w := by
  intro C _ D hD u hu v hv w hw ⟨W, _, huW, hvW, hwW⟩
  have huw : u ≠ w := fun h => hwW (h ▸ huW)
  have hvw : v ≠ w := fun h => hwW (h ▸ hvW)
  have huv : v = u := by
    simp only [Finset.mem_insert, Finset.mem_singleton] at hu hv hw
    rcases hu with rfl | rfl <;> rcases hv with rfl | rfl <;> rcases hw with rfl | rfl <;> simp_all
  have huS : u ∈ S := by
    simp only [Finset.mem_insert, Finset.mem_singleton] at hu
    rcases hu with rfl | rfl
    · exact ha
    · exact hc
  exact ⟨{u}, (h𝒞 D hD).singleton u huS, by simp, by simp [huv], by simpa using huw.symm⟩

omit [DecidableEq β] in
/-- Three labels two of which lie in a cluster without the third everywhere have
the same triples everywhere. -/
theorem triple_three (h𝒞 : ∀ C ∈ 𝒞, Hierarchy S C) (hYS : ({a, c, x} : Finset α) ⊆ S)
    (hxac : x ≠ a ∧ x ≠ c) (hV : ∀ C ∈ 𝒞, ∃ V ∈ C, a ∈ V ∧ c ∈ V ∧ x ∉ V) :
    ∀ C ∈ 𝒞, ∀ D ∈ 𝒞, ∀ u ∈ ({a, c, x} : Finset α), ∀ v ∈ ({a, c, x} : Finset α),
      ∀ w ∈ ({a, c, x} : Finset α), Triple C u v w → Triple D u v w := by
  intro C hC D hD u hu v hv w hw ⟨W, hW, huW, hvW, hwW⟩
  have huw : u ≠ w := fun h => hwW (h ▸ huW)
  have hvw : v ≠ w := fun h => hwW (h ▸ hvW)
  by_cases huv : u = v
  · exact ⟨{u}, (h𝒞 D hD).singleton u (hYS hu), by simp, by simp [huv], by simpa using huw.symm⟩
  obtain ⟨V, hVC, haV, hcV, hxV⟩ := hV C hC
  obtain ⟨V', hVD, haV', hcV', hxV'⟩ := hV D hD
  have pairV : ∀ {z}, z ∈ ({a, c, x} : Finset α) → z ≠ x → z ∈ V ∧ z ∈ V' := by
    intro z hz hzx
    simp only [Finset.mem_insert, Finset.mem_singleton] at hz
    rcases hz with rfl | rfl | rfl
    · exact ⟨haV, haV'⟩
    · exact ⟨hcV, hcV'⟩
    · exact absurd rfl hzx
  -- a cluster with `x` and one of the pair has both
  have hwx : w = x := by
    by_contra hwx
    have hor : u = x ∨ v = x := by
      by_contra hno
      rw [not_or] at hno
      simp only [Finset.mem_insert, Finset.mem_singleton] at hu hv hw
      have hu' : u = a ∨ u = c := by tauto
      have hv' : v = a ∨ v = c := by tauto
      have hw' : w = a ∨ w = c := by tauto
      rcases hu' with rfl | rfl <;> rcases hv' with rfl | rfl <;> rcases hw' with rfl | rfl <;>
        first
          | exact huv rfl
          | exact huw rfl
          | exact hvw rfl
    have hsub : V ⊆ W := by
      rcases hor with rfl | rfl
      · exact (h𝒞 C hC).subset_of_mem hVC hW (pairV hv (Ne.symm huv)).1 hvW huW hxV
      · exact (h𝒞 C hC).subset_of_mem hVC hW (pairV hu huv).1 huW hvW hxV
    exact hwW (hsub (pairV hw hwx).1)
  refine ⟨V', hVD, (pairV hu ?_).2, (pairV hv ?_).2, hwx ▸ hxV'⟩
  · exact hwx ▸ huw
  · exact hwx ▸ hvw

omit [DecidableEq α] [DecidableEq β] in
/-- The same blocks under other names. -/
theorem IsAgreement.inl (h : IsAgreement S 𝒞 f) :
    IsAgreement S 𝒞 fun x => (Sum.inl (f x) : β ⊕ α) :=
  h.congr fun _ _ _ _ => Sum.inl_injective.eq_iff.symm

/-- Keeping the blocks keeps their number. -/
theorem card_image_inl (S : Finset α) (f : α → β) :
    (S.image fun x => (Sum.inl (f x) : β ⊕ α)).card = (S.image f).card := by
  rw [show (fun x => (Sum.inl (f x) : β ⊕ α)) = Sum.inl ∘ f from rfl, ← Finset.image_image,
    Finset.card_image_of_injective _ Sum.inl_injective]

/-- **Regrouping**: the labels of `Z` become singletons, and the blocks inside `Q`
make up for them. -/
theorem IsAgreement.exists_regroup {Y Z Q : Finset α} {y : α} (h𝒞 : ∀ C ∈ 𝒞, Hierarchy S C)
    (h : IsAgreement S 𝒞 f) (hYS : Y ⊆ S) (hZS : Z ⊆ S) (hX : ∀ C ∈ 𝒞, ∃ X ∈ C, X \ Z = Y)
    (htri : ∀ C ∈ 𝒞, ∀ D ∈ 𝒞, ∀ u ∈ Y, ∀ v ∈ Y, ∀ w ∈ Y, Triple C u v w → Triple D u v w) (hy : y ∈ Y)
    (hQ : Q ⊆ Y ∪ Z) (hyQ : y ∉ Q) (hclosed : ∀ q ∈ Q, ∀ w ∈ S, f w = f q → w ∈ Q) :
    ∃ g : α → β ⊕ α, IsAgreement S 𝒞 g ∧ (∀ b ∈ Z, Isolated S g b) ∧
      (S.image g).card + (Q.image f).card ≤ (S.image f).card + Z.card :=
  ⟨Maf.regroup f Y Z y, h.regroup h𝒞 (hYS hy) hy hX htri, fun _ hb => isolated_regroup hb,
    card_regroup_le (fun _ hq => (Finset.mem_union.1 (hQ hq)).elim (fun h => hYS h) fun h => hZS h) hQ hclosed
      (hYS hy) hyQ⟩

omit [DecidableEq α] in
/-- Singletons are as many blocks, with nothing else in them. -/
theorem closed_of_isolated {Q : Finset α} (hQS : Q ⊆ S) (hQ : ∀ q ∈ Q, Isolated S f q) :
    (∀ q ∈ Q, ∀ w ∈ S, f w = f q → w ∈ Q) ∧ (Q.image f).card = Q.card :=
  ⟨fun q hq w hw hwq => hQ q hq w hw hwq ▸ hq,
    Finset.card_image_of_injOn fun x hx y hy hxy =>
      hQ y (Finset.mem_coe.1 hy) x (hQS (Finset.mem_coe.1 hx)) hxy⟩

/-- **Cutting off the one label between a cherry.**  If in every forest there is at
most the label `b` between `a` and `c`, in one there is nothing and in one there
is `b`, then `b` can be made a singleton without adding blocks. -/
theorem IsAgreement.exists_isolate (h𝒞 : ∀ C ∈ 𝒞, Hierarchy S C) (h : IsAgreement S 𝒞 f) (ha : a ∈ S)
    (hc : c ∈ S) (hb : b ∈ S) (hB : ∀ C ∈ 𝒞, ∃ B, B ⊆ {b} ∧ Between C a c B)
    {C₀ : Finset (Finset α)} (hC₀ : C₀ ∈ 𝒞) (hcherry : {a, c} ∈ C₀) {D : Finset (Finset α)}
    (hD : D ∈ 𝒞) (hbD : Between D a c {b}) :
    ∃ g : α → β ⊕ α, IsAgreement S 𝒞 g ∧ Isolated S g b ∧
      (S.image g).card ≤ (S.image f).card := by
  have hX : ∀ C ∈ 𝒞, ∃ X ∈ C, X \ {b} = {a, c} := by
    intro C hC
    obtain ⟨B, hBb, hbet⟩ := hB C hC
    exact hbet.exists_sdiff hBb hbD.notMem.1 hbD.notMem.2
  by_cases hac : f a = f c
  · have hiso := isolated_of_between (h𝒞 C₀ hC₀) hcherry (h.embeds D hD) (h.agree D hD C₀ hC₀) ha hc
      hbD hac (Finset.mem_singleton_self b) hb
    refine ⟨_, h.inl, fun x hx hxb => hiso x hx (Sum.inl_injective hxb), ?_⟩
    exact (card_image_inl S f).le
  · have hne : a ≠ c := fun h => hac (congrArg f h)
    -- the singleton of the two joins the other
    have join : ∀ {p q}, p ∈ S → q ∈ S → p ≠ q → ({a, c} : Finset α) = {p, q} → Isolated S f p →
        ∃ g : α → β ⊕ α, IsAgreement S 𝒞 g ∧ Isolated S g b ∧ (S.image g).card ≤ (S.image f).card := by
      intro p q hp hq hpq hY hiso
      obtain ⟨hclosed, hcard⟩ := closed_of_isolated (f := f) (Finset.singleton_subset_iff.2 hp)
        (by simpa using hiso)
      obtain ⟨g, hg, hgb, hle⟩ := h.exists_regroup h𝒞 (by simp [Finset.insert_subset_iff, ha, hc])
        (Finset.singleton_subset_iff.2 hb) hX (triple_pair h𝒞 ha hc) (y := q) (by simp [hY])
        (by simp [hY]) (by simpa using hpq.symm) hclosed
      refine ⟨g, hg, hgb b (Finset.mem_singleton_self b), ?_⟩
      simp only [hcard, Finset.card_singleton] at hle
      omega
    rcases isolated_or_of_cherry (h.embeds C₀ hC₀) hcherry ha hc hac with hiso | hiso
    · exact join ha hc hne rfl hiso
    · exact join hc ha hne.symm (Finset.pair_comm a c) hiso

/-- **Separating a pair costs a block** when in every forest nothing but singletons
lies between the two. -/
theorem IsAgreement.exists_join (h𝒞 : ∀ C ∈ 𝒞, Hierarchy S C) (h : IsAgreement S 𝒞 f) (ha : a ∈ S)
    (hc : c ∈ S) {Z : Finset α} (hZS : Z ⊆ S) (hiso : ∀ z ∈ Z, Isolated S f z)
    (hX : ∀ C ∈ 𝒞, ∃ X ∈ C, X \ Z = {a, c}) {C₀ : Finset (Finset α)} (hC₀ : C₀ ∈ 𝒞)
    (hcherry : {a, c} ∈ C₀) (hac : f a ≠ f c) :
    ∃ g : α → β ⊕ α, IsAgreement S 𝒞 g ∧ (S.image g).card < (S.image f).card := by
  have hne : a ≠ c := fun h => hac (congrArg f h)
  have hZ : ∀ {w}, w ∈ ({a, c} : Finset α) → w ∉ Z := by
    intro w hw
    obtain ⟨X, -, hX⟩ := hX C₀ hC₀
    rw [← hX] at hw
    exact (Finset.mem_sdiff.1 hw).2
  have join : ∀ {p q}, p ∈ S → q ∈ S → p ≠ q → ({a, c} : Finset α) = {p, q} → Isolated S f p →
      ∃ g : α → β ⊕ α, IsAgreement S 𝒞 g ∧ (S.image g).card < (S.image f).card := by
    intro p q hp hq hpq hY hip
    have hpZ : p ∉ Z := hZ (by simp [hY])
    have hqZ : q ∉ Z := hZ (by simp [hY])
    have hQS : insert p Z ⊆ S := Finset.insert_subset hp hZS
    obtain ⟨hclosed, hcard⟩ := closed_of_isolated hQS fun w hw => by
      rcases Finset.mem_insert.1 hw with rfl | hw
      · exact hip
      · exact hiso w hw
    obtain ⟨g, hg, -, hle⟩ := h.exists_regroup h𝒞 (by simp [Finset.insert_subset_iff, ha, hc]) hZS hX
      (triple_pair h𝒞 ha hc) (y := q) (by simp [hY])
      (Finset.insert_subset (Finset.mem_union_left _ (by simp [hY])) Finset.subset_union_right)
      (by simp [hqZ, hpq.symm]) hclosed
    refine ⟨g, hg, ?_⟩
    rw [hcard, Finset.card_insert_of_notMem hpZ] at hle
    omega
  rcases isolated_or_of_cherry (h.embeds C₀ hC₀) hcherry ha hc hac with hip | hip
  · exact join ha hc hne rfl hip
  · exact join hc ha hne.symm (Finset.pair_comm a c) hip

/-- A cherry and its uncle `x`: apart from the labels of `Z` these three hang
together in every forest with the cherry below, and in `C₀` there are no others. -/
structure Uncle (S : Finset α) (𝒞 : List (Finset (Finset α))) (C₀ : Finset (Finset α)) (Z : Finset α)
    (p q x : α) : Prop where
  subset : {p, q, x} ⊆ S
  notMem : ∀ w ∈ ({p, q, x} : Finset α), w ∉ Z
  ne : p ≠ q ∧ x ≠ p ∧ x ≠ q
  pendant : ∀ C ∈ 𝒞, ∃ X ∈ C, X \ Z = {p, q, x}
  cherry : ∀ C ∈ 𝒞, ∃ V ∈ C, V \ Z = {p, q}
  below : ∀ b ∈ Z, ∃ D ∈ 𝒞, ∃ V ∈ D, V \ Z = {p, q} ∧ b ∈ V
  here : {p, q, x} ∈ C₀

namespace Uncle

variable {C₀ : Finset (Finset α)} {Z : Finset α} {p q : α}

omit [DecidableEq β] in
/-- The two labels of the cherry change places. -/
theorem symm (hU : Uncle S 𝒞 C₀ Z p q x) : Uncle S 𝒞 C₀ Z q p x := by
  have h₂ : ({q, p} : Finset α) = {p, q} := Finset.pair_comm q p
  have h₃ : ({q, p, x} : Finset α) = {p, q, x} := Finset.insert_comm q p {x}
  refine ⟨h₃ ▸ hU.subset, h₃ ▸ hU.notMem, ⟨hU.ne.1.symm, hU.ne.2.2, hU.ne.2.1⟩, ?_, ?_, ?_, h₃ ▸ hU.here⟩
  · rw [h₃]
    exact hU.pendant
  · rw [h₂]
    exact hU.cherry
  · rw [h₂]
    exact hU.below

omit [DecidableEq β] in
/-- The three have the same triples everywhere. -/
theorem triple (hU : Uncle S 𝒞 C₀ Z p q x) (h𝒞 : ∀ C ∈ 𝒞, Hierarchy S C) :
    ∀ C ∈ 𝒞, ∀ D ∈ 𝒞, ∀ u ∈ ({p, q, x} : Finset α), ∀ v ∈ ({p, q, x} : Finset α),
      ∀ w ∈ ({p, q, x} : Finset α), Triple C u v w → Triple D u v w := by
  refine triple_three h𝒞 hU.subset hU.ne.2 fun C hC => ?_
  obtain ⟨V, hVC, hVY⟩ := hU.cherry C hC
  have mem : ∀ {z}, z ∈ ({p, q, x} : Finset α) → (z ∈ V ↔ z ∈ ({p, q} : Finset α)) := fun hz =>
    mem_of_mem_pendant hVY (hU.notMem _ hz)
  refine ⟨V, hVC, (mem (by simp)).2 (by simp), (mem (by simp)).2 (by simp), fun hxV => ?_⟩
  have := (mem (by simp)).1 hxV
  simp [hU.ne.2] at this

/-- **Two singletons of the three** make up for two labels, the third takes what is left. -/
theorem exists_isolate_of_isolated (hU : Uncle S 𝒞 C₀ Z p q x) (h𝒞 : ∀ C ∈ 𝒞, Hierarchy S C)
    (h : IsAgreement S 𝒞 f) (hZS : Z ⊆ S) (hZ : Z.card ≤ 2) {u v y : α} (hu : u ∈ ({p, q, x} : Finset α))
    (hv : v ∈ ({p, q, x} : Finset α)) (hy : y ∈ ({p, q, x} : Finset α)) (huv : u ≠ v) (hyu : y ≠ u) (hyv : y ≠ v)
    (hiu : Isolated S f u) (hiv : Isolated S f v) :
    ∃ g : α → β ⊕ α, IsAgreement S 𝒞 g ∧ (∀ b ∈ Z, Isolated S g b) ∧ (S.image g).card ≤ (S.image f).card := by
  have hsub : ({u, v} : Finset α) ⊆ {p, q, x} := Finset.insert_subset hu (Finset.singleton_subset_iff.2 hv)
  obtain ⟨hclosed, hcard⟩ := closed_of_isolated (f := f) (hsub.trans hU.subset) (by simp [hiu, hiv])
  obtain ⟨g, hg, hgZ, hle⟩ := h.exists_regroup h𝒞 hU.subset hZS hU.pendant (hU.triple h𝒞) hy
    (hsub.trans Finset.subset_union_left) (by simp [hyu, hyv]) hclosed
  refine ⟨g, hg, hgZ, ?_⟩
  rw [hcard, Finset.card_pair huv] at hle
  omega

omit [DecidableEq β] in
/-- When `q` and `x` share a block, the blocks of the labels of `Z` lie in `Z`. -/
theorem block_subset (hU : Uncle S 𝒞 C₀ Z p q x) (h𝒞 : ∀ C ∈ 𝒞, Hierarchy S C) (h : IsAgreement S 𝒞 f)
    (hC₀ : C₀ ∈ 𝒞) (hZS : Z ⊆ S) (hip : Isolated S f p) (hqx : f q = f x) :
    ∀ b ∈ Z, ∀ w ∈ S, f w = f b → w ∈ Z := by
  intro b hb w hw hfw
  obtain ⟨D, hD, V, hVD, hVY, hbV⟩ := hU.below b hb
  have hqV : q ∈ V := (mem_of_mem_pendant hVY (hU.notMem q (by simp))).2 (by simp)
  have hxV : x ∉ V := fun hxV => by
    have := (mem_of_mem_pendant hVY (hU.notMem x (by simp))).1 hxV
    simp [hU.ne.2] at this
  obtain ⟨hfb, hsub⟩ := block_subset_of_between (h𝒞 C₀ hC₀) hU.here (by simp) (by simp) (h.embeds D hD)
    (h.agree D hD C₀ hC₀) (hU.subset (by simp)) (hU.subset (by simp)) (hZS hb) (fun h => hU.notMem b h hb) hVD
    hqV hxV hbV hqx
  by_contra hwZ
  have hwY : w ∈ ({p, q} : Finset α) := (mem_of_mem_pendant hVY hwZ).1 (hsub w hw hfw)
  rcases Finset.mem_insert.1 hwY with rfl | hwY
  · exact hwZ (hip b (hZS hb) hfw.symm ▸ hb)
  · exact hfb (Finset.mem_singleton.1 hwY ▸ hfw).symm

omit [DecidableEq β] in
/-- When `q` and `x` lie in different blocks, one of them is a singleton, as `p` is. -/
theorem isolated_or (hU : Uncle S 𝒞 C₀ Z p q x) (he : Embeds S C₀ f) (hip : Isolated S f p) (hqx : f q ≠ f x) :
    Isolated S f q ∨ Isolated S f x := by
  have hq : q ∈ S := hU.subset (by simp)
  have hx : x ∈ S := hU.subset (by simp)
  by_contra hboth
  rw [not_or] at hboth
  unfold Isolated at hboth
  push Not at hboth
  obtain ⟨⟨w, hw, hfw, hwq⟩, z, hz, hfz, hzx⟩ := hboth
  have hwp : w ≠ p := fun he => hU.ne.1 (hip q hq (he ▸ hfw.symm)).symm
  have hzp : z ≠ p := fun he => hU.ne.2.1 (hip x hx (he ▸ hfz.symm))
  refine hqx (he.disjoint _ hU.here _ _ ⟨q, hq, w, hw, rfl, hfw, by simp, ?_⟩ ⟨x, hx, z, hz, rfl, hfz, by simp, ?_⟩)
  · simp only [Finset.mem_insert, Finset.mem_singleton, not_or]
    exact ⟨hwp, hwq, fun he => hqx (he ▸ hfw).symm⟩
  · simp only [Finset.mem_insert, Finset.mem_singleton, not_or]
    exact ⟨hzp, fun he => hqx (he ▸ hfz), hzx⟩

/-- **One of the cherry is a singleton**: then the labels of `Z` can be made
singletons without adding blocks. -/
theorem exists_isolate (hU : Uncle S 𝒞 C₀ Z p q x) (h𝒞 : ∀ C ∈ 𝒞, Hierarchy S C) (h : IsAgreement S 𝒞 f)
    (hC₀ : C₀ ∈ 𝒞) (hZS : Z ⊆ S) (hZ : Z.card ≤ 2) {b : α} (hb : b ∈ Z) (hip : Isolated S f p) :
    ∃ g : α → β ⊕ α, IsAgreement S 𝒞 g ∧ (∀ b ∈ Z, Isolated S g b) ∧ (S.image g).card ≤ (S.image f).card := by
  have hpZ : p ∉ Z := hU.notMem p (by simp)
  by_cases hqx : f q = f x
  · -- the blocks of `Z` and the one of `p` are lost
    have hblock := hU.block_subset h𝒞 h hC₀ hZS hip hqx
    obtain ⟨g, hg, hgZ, hle⟩ := h.exists_regroup h𝒞 hU.subset hZS hU.pendant (hU.triple h𝒞) (Q := insert p Z)
      (y := q) (by simp) (Finset.insert_subset (by simp) Finset.subset_union_right)
      (by simp [hU.ne.1.symm, hU.notMem q]) fun w hw z hz hzw => by
        rcases Finset.mem_insert.1 hw with rfl | hw
        · exact Finset.mem_insert.2 (Or.inl (hip z hz hzw))
        · exact Finset.mem_insert_of_mem (hblock w hw z hz hzw)
    have hf : f p ≠ f b := fun hf => hpZ (hip b (hZS hb) hf.symm ▸ hb)
    have htwo : 2 ≤ ((insert p Z).image f).card := by
      rw [← Finset.card_pair hf]
      exact Finset.card_le_card (Finset.insert_subset (Finset.mem_image_of_mem f (Finset.mem_insert_self p Z))
        (Finset.singleton_subset_iff.2 (Finset.mem_image_of_mem f (Finset.mem_insert_of_mem hb))))
    exact ⟨g, hg, hgZ, by omega⟩
  · -- otherwise the uncle or the rest of the cherry is a singleton too
    rcases hU.isolated_or (h.embeds C₀ hC₀) hip hqx with hiq | hix
    · exact hU.exists_isolate_of_isolated h𝒞 h hZS hZ (y := x) (by simp) (by simp) (by simp) hU.ne.1 hU.ne.2.1
        hU.ne.2.2 hip hiq
    · exact hU.exists_isolate_of_isolated h𝒞 h hZS hZ (y := q) (by simp) (by simp) (by simp) hU.ne.2.1.symm
        hU.ne.1.symm hU.ne.2.2.symm hip hix

end Uncle

/-- **Cutting off two labels between a cherry with a common uncle.**  If in every
forest there are at most the labels `b₁`, `b₂` between `a` and `c`, and `x` next to
all of them, in one there is nothing between and in some there is each of the
two, then both can be made singletons without adding blocks. -/
theorem IsAgreement.exists_isolate_two (h𝒞 : ∀ C ∈ 𝒞, Hierarchy S C) (h : IsAgreement S 𝒞 f)
    (ha : a ∈ S) (hc : c ∈ S) (hx : x ∈ S) (hbS : ∀ b ∈ ({b₁, b₂} : Finset α), b ∈ S)
    (hB : ∀ C ∈ 𝒞, ∃ B, B ⊆ {b₁, b₂} ∧ Between C a c B ∧ insert x ({a, c} ∪ B) ∈ C)
    (hxac : x ≠ a ∧ x ≠ c) (hxb : x ∉ ({b₁, b₂} : Finset α)) {C₀ : Finset (Finset α)} (hC₀ : C₀ ∈ 𝒞)
    (hcherry : {a, c} ∈ C₀) (huncle : {a, c, x} ∈ C₀)
    (hbetween : ∀ b ∈ ({b₁, b₂} : Finset α), ∃ D ∈ 𝒞, ∃ B, B ⊆ {b₁, b₂} ∧ Between D a c B ∧ b ∈ B) :
    ∃ g : α → β ⊕ α, IsAgreement S 𝒞 g ∧ (∀ b ∈ ({b₁, b₂} : Finset α), Isolated S g b) ∧
      (S.image g).card ≤ (S.image f).card := by
  by_cases hac : f a = f c
  · refine ⟨_, h.inl, fun b hb w hw hwb => ?_, (card_image_inl S f).le⟩
    obtain ⟨D, hD, B, -, hbet, hbB⟩ := hbetween b hb
    exact isolated_of_between (h𝒞 C₀ hC₀) hcherry (h.embeds D hD) (h.agree D hD C₀ hC₀) ha hc hbet hac
      hbB (hbS b hb) w hw (Sum.inl_injective hwb)
  have hne : a ≠ c := fun h => hac (congrArg f h)
  have notZ : ∀ w ∈ ({a, c, x} : Finset α), w ∉ ({b₁, b₂} : Finset α) := by
    intro w hw hwZ
    obtain ⟨D, -, B, -, hbet, hwB⟩ := hbetween w hwZ
    simp only [Finset.mem_insert, Finset.mem_singleton] at hw
    rcases hw with rfl | rfl | rfl
    · exact hbet.notMem.1 hwB
    · exact hbet.notMem.2 hwB
    · exact hxb hwZ
  -- apart from the two labels every forest has the cherry and the uncle
  have rest : ∀ {Y B : Finset α}, Y ⊆ {a, c, x} → B ⊆ {b₁, b₂} → (Y ∪ B) \ {b₁, b₂} = Y := by
    intro Y B hY hBZ
    rw [Finset.union_sdiff_distrib, Finset.sdiff_eq_empty_iff_subset.2 hBZ, Finset.union_empty]
    exact Finset.sdiff_eq_self_of_disjoint (Finset.disjoint_left.2 fun w hw => notZ w (hY hw))
  have hpair : ({a, c} : Finset α) ⊆ {a, c, x} := by
    intro w hw
    simp only [Finset.mem_insert, Finset.mem_singleton] at hw ⊢
    tauto
  have hU : Uncle S 𝒞 C₀ {b₁, b₂} a c x := by
    refine ⟨by simp [Finset.insert_subset_iff, ha, hc, hx], notZ, ⟨hne, hxac⟩, fun C hC => ?_, fun C hC => ?_,
      fun b hb => ?_, huncle⟩
    · obtain ⟨B, hBZ, -, hmem⟩ := hB C hC
      refine ⟨_, hmem, ?_⟩
      rw [show insert x ({a, c} ∪ B) = {a, c, x} ∪ B by ext w; simp; tauto]
      exact rest (Finset.Subset.refl _) hBZ
    · obtain ⟨B, hBZ, hbet, -⟩ := hB C hC
      exact ⟨_, hbet.cluster, rest hpair hBZ⟩
    · obtain ⟨D, hD, B, hBZ, hbet, hbB⟩ := hbetween b hb
      exact ⟨D, hD, _, hbet.cluster, rest hpair hBZ, Finset.mem_union_right _ hbB⟩
  rcases isolated_or_of_cherry (h.embeds C₀ hC₀) hcherry ha hc hac with hiso | hiso
  · exact hU.exists_isolate h𝒞 h hC₀ hbS Finset.card_le_two (Finset.mem_insert_self b₁ _) hiso
  · exact hU.symm.exists_isolate h𝒞 h hC₀ hbS Finset.card_le_two (Finset.mem_insert_self b₁ _) hiso

end Exchange

end Maf
