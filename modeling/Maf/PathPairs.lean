/-
# Triples and path pairs

Agreement forests of a tree and a forest inside it, without spanning subtrees: a
labelling that fits into the clusters `C` is an agreement forest of `C` and a tree
`D` exactly when no three labels of a block have different topologies
(`Conflict`) and no two paths inside blocks that share no edge in `C` share one in
`D` (`isAgreement_iff_conflicts`).  An edge lies on the path between two labels
when its cluster separates them.

Of the three ways to pair four labels at most one gives paths without a common
edge (`pairing_unique`).
-/

import Maf.Agreement

namespace Maf

variable {α β : Type*}

/-- The edge above `X` lies on the path between `x` and `y`. -/
def Separates (X : Finset α) (x y : α) : Prop := ¬(x ∈ X ↔ y ∈ X)

/-- The paths between `p`, `q` and between `r`, `s` share no edge. -/
def PathsDisjoint (C : Finset (Finset α)) (p q r s : α) : Prop :=
  ∀ X ∈ C, ¬(Separates X p q ∧ Separates X r s)

/-- Separating two labels is symmetric. -/
theorem Separates.symm {X : Finset α} {x y : α} (h : Separates X x y) : Separates X y x :=
  fun h' => h h'.symm

/-- Separating two labels does not depend on their order. -/
theorem separates_comm {X : Finset α} {x y : α} : Separates X x y ↔ Separates X y x :=
  ⟨Separates.symm, Separates.symm⟩

/-- An edge separates two labels when it has one of them below. -/
theorem separates_iff {X : Finset α} {x y : α} :
    Separates X x y ↔ x ∈ X ∧ y ∉ X ∨ y ∈ X ∧ x ∉ X := by
  unfold Separates
  tauto

instance [DecidableEq α] (X : Finset α) (x y : α) : Decidable (Separates X x y) :=
  inferInstanceAs (Decidable (¬_))

instance [DecidableEq α] (C : Finset (Finset α)) (p q r s : α) : Decidable (PathsDisjoint C p q r s) :=
  inferInstanceAs (Decidable (∀ X ∈ C, _))

variable [DecidableEq α]

/-- Three labels have different topologies in `C` and `D`. -/
def Conflict (C D : Finset (Finset α)) (x y z : α) : Prop :=
  Triple C x y z ∧ ¬Triple D x y z ∨ Triple C y z x ∧ ¬Triple D y z x ∨
    Triple C x z y ∧ ¬Triple D x z y

namespace Hierarchy

variable {S : Finset α} {C D : Finset (Finset α)}

/-- Two of three labels are the closest pair. -/
theorem triple_of_mem (h : Hierarchy S C) {X : Finset α} (hX : X ∈ C) {x y z : α} (hx : x ∈ X)
    (hy : y ∈ X) (hz : z ∈ X) (hxy : x ≠ y) (hxz : x ≠ z) (hyz : y ≠ z) :
    Triple C x y z ∨ Triple C y z x ∨ Triple C x z y := by
  have hB : ({x, y, z} : Finset α) ⊆ X := by
    intro w hw
    simp only [Finset.mem_insert, Finset.mem_singleton] at hw
    rcases hw with rfl | rfl | rfl
    · exact hx
    · exact hy
    · exact hz
  obtain ⟨Y, hY, hBY, hmin⟩ := exists_least C ⟨X, hX, hB⟩
  have hcard : 2 ≤ ({x, y, z} : Finset α).card := by
    rw [Finset.card_eq_three.2 ⟨x, y, z, hxy, hxz, hyz, rfl⟩]
    omega
  obtain ⟨Y₁, h₁, Y₂, h₂, hd, rfl, ⟨u, hu, hu₁⟩, v, hv, hv₂⟩ :=
    h.exists_split_of_least hY hBY hmin hcard
  have side : ∀ w ∈ ({x, y, z} : Finset α), w ∈ Y₁ ∧ w ∉ Y₂ ∨ w ∈ Y₂ ∧ w ∉ Y₁ := by
    intro w hw
    rcases Finset.mem_union.1 (hBY hw) with hw' | hw'
    · exact Or.inl ⟨hw', Finset.disjoint_left.1 hd hw'⟩
    · exact Or.inr ⟨hw', Finset.disjoint_right.1 hd hw'⟩
  have hsx := side x (by simp)
  have hsy := side y (by simp)
  have hsz := side z (by simp)
  have hboth : ¬(x ∈ Y₁ ∧ y ∈ Y₁ ∧ z ∈ Y₁) ∧ ¬(x ∈ Y₂ ∧ y ∈ Y₂ ∧ z ∈ Y₂) := by
    simp only [Finset.mem_insert, Finset.mem_singleton] at hu hv
    constructor
    · rintro ⟨hx₁, hy₁, hz₁⟩
      rcases hv with rfl | rfl | rfl
      · exact Finset.disjoint_left.1 hd hx₁ hv₂
      · exact Finset.disjoint_left.1 hd hy₁ hv₂
      · exact Finset.disjoint_left.1 hd hz₁ hv₂
    · rintro ⟨hx₂, hy₂, hz₂⟩
      rcases hu with rfl | rfl | rfl
      · exact Finset.disjoint_left.1 hd hu₁ hx₂
      · exact Finset.disjoint_left.1 hd hu₁ hy₂
      · exact Finset.disjoint_left.1 hd hu₁ hz₂
  rcases hsx with hx' | hx' <;> rcases hsy with hy' | hy' <;> rcases hsz with hz' | hz'
  · exact absurd ⟨hx'.1, hy'.1, hz'.1⟩ hboth.1
  · exact Or.inl ⟨Y₁, h₁, hx'.1, hy'.1, hz'.2⟩
  · exact Or.inr (Or.inr ⟨Y₁, h₁, hx'.1, hz'.1, hy'.2⟩)
  · exact Or.inr (Or.inl ⟨Y₂, h₂, hy'.1, hz'.1, hx'.2⟩)
  · exact Or.inr (Or.inl ⟨Y₁, h₁, hy'.1, hz'.1, hx'.2⟩)
  · exact Or.inr (Or.inr ⟨Y₂, h₂, hx'.1, hz'.1, hy'.2⟩)
  · exact Or.inl ⟨Y₂, h₂, hx'.1, hy'.1, hz'.2⟩
  · exact absurd ⟨hx'.1, hy'.1, hz'.1⟩ hboth.2

/-- Only one pair of three labels is the closest. -/
theorem not_triple_of_triple (h : Hierarchy S C) {x y z : α} (hxy : Triple C x y z) :
    ¬Triple C y z x ∧ ¬Triple C x z y := by
  obtain ⟨X, hX, hxX, hyX, hzX⟩ := hxy
  constructor
  · rintro ⟨Y, hY, hyY, hzY, hxY⟩
    exact hxY (h.subset_of_mem hX hY hyX hyY hzY hzX hxX)
  · rintro ⟨Y, hY, hxY, hzY, hyY⟩
    exact hyY (h.subset_of_mem hX hY hxX hxY hzY hzX hyX)

/-- **Some edge has exactly two of four labels below it.** -/
theorem exists_two (h : Hierarchy S C) {X Q : Finset α} (hX : X ∈ C) (hQ : 2 ≤ (X ∩ Q).card) :
    ∃ U ∈ C, (U ∩ Q).card = 2 := by
  obtain ⟨U, hU, hmin⟩ := (C.filter fun U => 2 ≤ (U ∩ Q).card).exists_min_image Finset.card
    ⟨X, Finset.mem_filter.2 ⟨hX, hQ⟩⟩
  rw [Finset.mem_filter] at hU
  refine ⟨U, hU.1, le_antisymm ?_ hU.2⟩
  obtain ⟨Y, hY, Z, hZ, hd, rfl⟩ := h.split U hU.1 (hU.2.trans (Finset.card_le_card Finset.inter_subset_left))
  have hpos : 0 < Y.card ∧ 0 < Z.card := ⟨(h.nonempty Y hY).card_pos, (h.nonempty Z hZ).card_pos⟩
  have hcard := Finset.card_union_of_disjoint hd
  have small : ∀ {W}, W ∈ C → W.card < (Y ∪ Z).card → (W ∩ Q).card ≤ 1 := by
    intro W hW hlt
    by_contra hbig
    exact absurd (hmin W (Finset.mem_filter.2 ⟨hW, by omega⟩)) (by omega)
  have h₁ := small hY (by omega)
  have h₂ := small hZ (by omega)
  have h₃ := Finset.card_union_le (Y ∩ Q) (Z ∩ Q)
  rw [← Finset.union_inter_distrib_right] at h₃
  omega

end Hierarchy

section Pairings

variable {S : Finset α} {C D : Finset (Finset α)}

omit [DecidableEq α] in
/-- Two disjoint paths may be swapped. -/
theorem PathsDisjoint.symm {p q r s : α} (h : PathsDisjoint C p q r s) : PathsDisjoint C r s p q :=
  fun X hX h' => h X hX h'.symm

/-- An edge with two of four labels below it, both labels of the pair `A` or
neither, has one of the pairs below it. -/
theorem inter_eq_of_pair {U A B : Finset α} (hA : A.card = 2) (hB : B.card = 2) (hd : Disjoint A B)
    (hU : (U ∩ (A ∪ B)).card = 2) (h : A ⊆ U ∨ Disjoint A U) :
    U ∩ (A ∪ B) = A ∧ (A ∪ B) \ U = B ∨ U ∩ (A ∪ B) = B ∧ (A ∪ B) \ U = A := by
  rcases h with h | h
  · have heq : A = U ∩ (A ∪ B) := Finset.eq_of_subset_of_card_le
      (Finset.subset_inter h Finset.subset_union_left) (by omega)
    refine Or.inl ⟨heq.symm, ?_⟩
    ext x
    have hiff : x ∈ A ↔ x ∈ U ∩ (A ∪ B) := by rw [← heq]
    have hx : x ∈ A → x ∉ B := fun hA => Finset.disjoint_left.1 hd hA
    simp only [Finset.mem_inter, Finset.mem_union, Finset.mem_sdiff] at hiff ⊢
    tauto
  · have hsub : U ∩ (A ∪ B) ⊆ B := by
      intro x hx
      obtain ⟨hxU, hx⟩ := Finset.mem_inter.1 hx
      exact (Finset.mem_union.1 hx).resolve_left fun hA => Finset.disjoint_left.1 h hA hxU
    have heq : U ∩ (A ∪ B) = B := Finset.eq_of_subset_of_card_le hsub (by omega)
    refine Or.inr ⟨heq, ?_⟩
    ext x
    have hiff : x ∈ U ∩ (A ∪ B) ↔ x ∈ B := by rw [heq]
    have hx : x ∈ A → x ∉ U := fun hA => Finset.disjoint_left.1 h hA
    simp only [Finset.mem_inter, Finset.mem_union, Finset.mem_sdiff] at hiff ⊢
    tauto

/-- Four different labels, in two pairs. -/
def FourLabels (p q r s : α) : Prop :=
  p ≠ q ∧ r ≠ s ∧ p ≠ r ∧ p ≠ s ∧ q ≠ r ∧ q ≠ s

/-- **Some edge splits four labels into the pairs** of any two paths without a
common edge. -/
theorem FourLabels.pairs {p q r s : α} (h : FourLabels p q r s) (hdis : PathsDisjoint C p q r s)
    {U : Finset α} (hU : U ∈ C) (hcard : (U ∩ {p, q, r, s}).card = 2) :
    U ∩ {p, q, r, s} = {p, q} ∧ {p, q, r, s} \ U = {r, s} ∨
      U ∩ {p, q, r, s} = {r, s} ∧ {p, q, r, s} \ U = {p, q} := by
  obtain ⟨hpq, hrs, hpr, hps, hqr, hqs⟩ := h
  have hd : Disjoint ({p, q} : Finset α) {r, s} := by
    simp only [Finset.disjoint_insert_left, Finset.disjoint_singleton_left, Finset.mem_insert,
      Finset.mem_singleton, not_or]
    exact ⟨⟨hpr, hps⟩, hqr, hqs⟩
  have hQ : ({p, q, r, s} : Finset α) = {p, q} ∪ {r, s} := by
    rw [Finset.insert_union, Finset.singleton_union]
  have whole : ∀ {x y : α}, ¬Separates U x y → ({x, y} : Finset α) ⊆ U ∨ Disjoint {x, y} U := by
    intro x y hxy
    unfold Separates at hxy
    rw [not_not] at hxy
    by_cases hx : x ∈ U
    · exact Or.inl (Finset.insert_subset hx (Finset.singleton_subset_iff.2 (hxy.1 hx)))
    · refine Or.inr (Finset.disjoint_insert_left.2 ⟨hx, Finset.disjoint_singleton_left.2 ?_⟩)
      exact fun hy => hx (hxy.2 hy)
  rw [hQ] at hcard ⊢
  rcases not_and_or.1 (hdis U hU) with h | h
  · exact inter_eq_of_pair (Finset.card_pair hpq) (Finset.card_pair hrs) hd hcard (whole h)
  · rw [Finset.union_comm] at hcard ⊢
    exact (inter_eq_of_pair (Finset.card_pair hrs) (Finset.card_pair hpq) hd.symm hcard (whole h)).symm

/-- **At most one pairing of four labels of a tree has paths without a common
edge.** -/
theorem pairing_unique (hC : Hierarchy S C) {X : Finset α} (hX : X ∈ C) {p q r s p' q' r' s' : α}
    (h : FourLabels p q r s) (h' : FourLabels p' q' r' s')
    (hQ : ({p, q, r, s} : Finset α) = {p', q', r', s'}) (hQX : ({p, q, r, s} : Finset α) ⊆ X)
    (hdis : PathsDisjoint C p q r s) (hdis' : PathsDisjoint C p' q' r' s') :
    ({p, q} : Finset α) = {p', q'} ∧ ({r, s} : Finset α) = {r', s'} ∨
      ({p, q} : Finset α) = {r', s'} ∧ ({r, s} : Finset α) = {p', q'} := by
  have htwo : 2 ≤ (X ∩ {p, q, r, s}).card := by
    rw [Finset.inter_eq_right.2 hQX]
    refine (Finset.card_pair h.1).ge.trans (Finset.card_le_card fun x hx => ?_)
    rcases Finset.mem_insert.1 hx with rfl | hx
    · simp
    · simp [Finset.mem_singleton.1 hx]
  obtain ⟨U, hU, hcard⟩ := hC.exists_two hX htwo
  have h₁ := h.pairs hdis hU hcard
  have h₂ := h'.pairs hdis' hU (hQ ▸ hcard)
  rw [← hQ] at h₂
  rcases h₁ with ⟨ha, hb⟩ | ⟨ha, hb⟩ <;> rcases h₂ with ⟨hc, hd⟩ | ⟨hc, hd⟩
  · exact Or.inl ⟨ha.symm.trans hc, hb.symm.trans hd⟩
  · exact Or.inr ⟨ha.symm.trans hc, hb.symm.trans hd⟩
  · exact Or.inr ⟨hb.symm.trans hd, ha.symm.trans hc⟩
  · exact Or.inl ⟨hb.symm.trans hd, ha.symm.trans hc⟩

end Pairings

section Characterisation

variable {S : Finset α} {C D : Finset (Finset α)} {f : α → β}

omit [DecidableEq α] in
/-- A block has the same topology everywhere, so no conflict. -/
theorem Agrees.not_conflict (h : Agrees S C D f) {x y z : α} (hx : x ∈ S) (hy : y ∈ S) (hz : z ∈ S)
    (hxy : f x = f y) (hyz : f y = f z) : ¬Conflict C D x y z := by
  rintro (⟨h₁, h₂⟩ | ⟨h₁, h₂⟩ | ⟨h₁, h₂⟩)
  · exact h₂ (h x hx y hy z hz hxy hyz h₁)
  · exact h₂ (h y hy z hz x hx hyz (hxy.trans hyz).symm h₁)
  · exact h₂ (h x hx z hz y hy (hxy.trans hyz) hyz.symm h₁)

/-- An edge on two paths inside a block is on two paths in every forest that agrees
on the block. -/
theorem exists_separates_of_agrees (hC : Hierarchy S C) (hag : Agrees S D C f) {X : Finset α} (hX : X ∈ D)
    {x y z w : α} (hS : x ∈ S ∧ y ∈ S ∧ z ∈ S ∧ w ∈ S) (hxy : f x = f y) (hxz : f x = f z) (hxw : f x = f w)
    (hxX : x ∈ X) (hyX : y ∉ X) (hzX : z ∈ X) (hwX : w ∉ X) :
    ∃ Y ∈ C, x ∈ Y ∧ y ∉ Y ∧ z ∈ Y ∧ w ∉ Y := by
  obtain ⟨hx, hy, hz, hw⟩ := hS
  obtain ⟨Y, hY, hxY, hzY, hyY⟩ := hag x hx z hz y hy hxz (hxz.symm.trans hxy) ⟨X, hX, hxX, hzX, hyX⟩
  obtain ⟨Z, hZ, hxZ, hzZ, hwZ⟩ := hag x hx z hz w hw hxz (hxz.symm.trans hxw) ⟨X, hX, hxX, hzX, hwX⟩
  rcases hC.nested_of_mem hY hZ hxY hxZ with hYZ | hZY
  · exact ⟨Y, hY, hxY, hyY, hzY, fun h => hwZ (hYZ h)⟩
  · exact ⟨Z, hZ, hxZ, fun h => hyY (hZY h), hzZ, hwZ⟩

/-- **Blocks that agree keep paths apart.** -/
theorem IsAgreement.pathsDisjoint (hC : Hierarchy S C) (h : IsAgreement S [C, D] f) {p q r s : α}
    (hS : p ∈ S ∧ q ∈ S ∧ r ∈ S ∧ s ∈ S) (hpq : f p = f q) (hrs : f r = f s)
    (hdis : PathsDisjoint C p q r s) : PathsDisjoint D p q r s := by
  obtain ⟨hp, hq, hr, hs⟩ := hS
  have hag : Agrees S D C f := h.agree D (by simp) C (by simp)
  have he : Embeds S D f := h.embeds D (by simp)
  intro X hX hsep
  rw [separates_iff, separates_iff] at hsep
  have hfpr : f p = f r := by
    have used : ∀ {x y}, x ∈ S → y ∈ S → f x = f y → x ∈ X → y ∉ X → Used S f X (f x) :=
      fun {x y} hx hy hxy hxX hyX => ⟨x, hx, y, hy, rfl, hxy.symm, hxX, hyX⟩
    refine he.disjoint X hX _ _ ?_ ?_
    · rcases hsep.1 with h | h
      · exact used hp hq hpq h.1 h.2
      · exact hpq ▸ used hq hp hpq.symm h.1 h.2
    · rcases hsep.2 with h | h
      · exact used hr hs hrs h.1 h.2
      · exact hrs ▸ used hs hr hrs.symm h.1 h.2
  -- the two labels below the edge against the two others
  have key : ∀ {x y z w}, x ∈ S → y ∈ S → z ∈ S → w ∈ S → f x = f y → f x = f z → f x = f w →
      x ∈ X → y ∉ X → z ∈ X → w ∉ X → ∃ Y ∈ C, Separates Y x y ∧ Separates Y z w := by
    intro x y z w hx hy hz hw hxy hxz hxw hxX hyX hzX hwX
    obtain ⟨Y, hY, h₁, h₂, h₃, h₄⟩ :=
      exists_separates_of_agrees hC hag hX ⟨hx, hy, hz, hw⟩ hxy hxz hxw hxX hyX hzX hwX
    exact ⟨Y, hY, separates_iff.2 (Or.inl ⟨h₁, h₂⟩), separates_iff.2 (Or.inl ⟨h₃, h₄⟩)⟩
  have hfps : f p = f s := hfpr.trans hrs
  rcases hsep with ⟨h₁ | h₁, h₂ | h₂⟩
  · obtain ⟨Y, hY, h₁, h₂⟩ := key hp hq hr hs hpq hfpr hfps h₁.1 h₁.2 h₂.1 h₂.2
    exact hdis Y hY ⟨h₁, h₂⟩
  · obtain ⟨Y, hY, h₁, h₂⟩ := key hp hq hs hr hpq hfps hfpr h₁.1 h₁.2 h₂.1 h₂.2
    exact hdis Y hY ⟨h₁, h₂.symm⟩
  · obtain ⟨Y, hY, h₁, h₂⟩ := key hq hp hr hs hpq.symm (hpq ▸ hfpr) (hpq ▸ hfps) h₁.1 h₁.2 h₂.1 h₂.2
    exact hdis Y hY ⟨h₁.symm, h₂⟩
  · obtain ⟨Y, hY, h₁, h₂⟩ := key hq hp hs hr hpq.symm (hpq ▸ hfps) (hpq ▸ hfpr) h₁.1 h₁.2 h₂.1 h₂.2
    exact hdis Y hY ⟨h₁.symm, h₂.symm⟩

/-- **Triples and path pairs characterise agreement forests** of a forest and a
tree, for blocks that fit into the forest. -/
theorem isAgreement_iff_conflicts (hC : Hierarchy S C) (hD : Hierarchy S D) (hSD : S ∈ D)
    (hf : Embeds S C f) : IsAgreement S [C, D] f ↔
      (∀ x ∈ S, ∀ y ∈ S, ∀ z ∈ S, x ≠ y → x ≠ z → y ≠ z → f x = f y → f y = f z → ¬Conflict C D x y z) ∧
      ∀ p ∈ S, ∀ q ∈ S, ∀ r ∈ S, ∀ s ∈ S, FourLabels p q r s → f p = f q → f r = f s →
        PathsDisjoint C p q r s → PathsDisjoint D p q r s := by
  constructor
  · intro h
    exact ⟨fun x hx y hy z hz _ _ _ hxy hyz =>
      (h.agree C (by simp) D (by simp)).not_conflict hx hy hz hxy hyz,
      fun p hp q hq r hr s hs _ hpq hrs => h.pathsDisjoint hC ⟨hp, hq, hr, hs⟩ hpq hrs⟩
  · rintro ⟨htri, hpath⟩
    have hCD : Agrees S C D f := by
      intro x hx y hy z hz hxy hyz h
      obtain ⟨X, hX, hxX, hyX, hzX⟩ := h
      have hxz : x ≠ z := fun h => hzX (h ▸ hxX)
      have hyz' : y ≠ z := fun h => hzX (h ▸ hyX)
      by_cases hne : x = y
      · subst hne
        exact ⟨{x}, hD.singleton x hx, by simp, by simp, by simpa using hxz.symm⟩
      · by_contra hno
        exact htri x hx y hy z hz hne hxz hyz' hxy hyz (Or.inl ⟨⟨X, hX, hxX, hyX, hzX⟩, hno⟩)
    -- of three labels in one tree of both, the closest pair is the same
    have hDC : Agrees S D C f := by
      intro x hx y hy z hz hxy hyz h
      obtain ⟨X, hX, hxX, hyX, hzX⟩ := h
      have hxz : x ≠ z := fun h => hzX (h ▸ hxX)
      have hyz' : y ≠ z := fun h => hzX (h ▸ hyX)
      by_cases hne : x = y
      · subst hne
        exact ⟨{x}, hC.singleton x hx, by simp, by simp, by simpa using hxz.symm⟩
      have hthree : ∀ u ∈ ({x, y, z} : Finset α), ∀ v ∈ ({x, y, z} : Finset α), f u = f v := by
        intro u hu v hv
        have all : ∀ w ∈ ({x, y, z} : Finset α), f w = f y := by
          intro w hw
          simp only [Finset.mem_insert, Finset.mem_singleton] at hw
          rcases hw with rfl | rfl | rfl
          · exact hxy
          · rfl
          · exact hyz.symm
        rw [all u hu, all v hv]
      have hsub : ({x, y, z} : Finset α) ⊆ S := by
        intro w hw
        simp only [Finset.mem_insert, Finset.mem_singleton] at hw
        rcases hw with rfl | rfl | rfl
        · exact hx
        · exact hy
        · exact hz
      obtain ⟨Y, hY, hBY⟩ := hf.exists_subset hC hsub hthree ⟨x, by simp⟩
      rcases hC.triple_of_mem hY (hBY (by simp)) (hBY (by simp)) (hBY (by simp)) hne hxz hyz' with h | h | h
      · exact h
      · exact absurd (hCD y hy z hz x hx hyz (hxy.trans hyz).symm h)
          (hD.not_triple_of_triple ⟨X, hX, hxX, hyX, hzX⟩).1
      · exact absurd (hCD x hx z hz y hy (hxy.trans hyz) hyz.symm h)
          (hD.not_triple_of_triple ⟨X, hX, hxX, hyX, hzX⟩).2
    have hself : ∀ E : Finset (Finset α), Agrees S E E f := fun E x _ y _ z _ _ _ h => h
    refine ⟨fun E hE => ?_, fun E hE G hG => ?_⟩
    · rcases List.mem_pair.1 hE with rfl | rfl
      · exact hf
      refine ⟨fun x hx y hy _ => ⟨S, hSD, hx, hy⟩, fun X hX b b' hb hb' => ?_⟩
      obtain ⟨p, hp, q, hq, rfl, hpq, hpX, hqX⟩ := hb
      obtain ⟨r, hr, s, hs, rfl, hrs, hrX, hsX⟩ := hb'
      by_contra hne
      have hfour : FourLabels p q r s := by
        refine ⟨fun h => hqX (h ▸ hpX), fun h => hsX (h ▸ hrX), fun h => hne (congrArg f h),
          fun h => hne (h ▸ hrs), fun h => hne (h ▸ hpq).symm, fun h => ?_⟩
        exact hne (hpq.symm.trans ((congrArg f h).trans hrs))
      have hdis : PathsDisjoint C p q r s := by
        rintro Y hY ⟨h₁, h₂⟩
        have used : ∀ {x y}, x ∈ S → y ∈ S → f x = f y → Separates Y x y → Used S f Y (f x) := by
          intro x y hx hy hxy hsep
          rcases separates_iff.1 hsep with h | h
          · exact ⟨x, hx, y, hy, rfl, hxy.symm, h.1, h.2⟩
          · exact ⟨y, hy, x, hx, hxy.symm, rfl, h.1, h.2⟩
        exact hne (hf.disjoint Y hY _ _ (used hp hq hpq.symm h₁) (used hr hs hrs.symm h₂))
      exact hpath p hp q hq r hr s hs hfour hpq.symm hrs.symm hdis X hX
        ⟨separates_iff.2 (Or.inl ⟨hpX, hqX⟩), separates_iff.2 (Or.inl ⟨hrX, hsX⟩)⟩
    · rcases List.mem_pair.1 hE with rfl | rfl <;> rcases List.mem_pair.1 hG with rfl | rfl
      · exact hself _
      · exact hCD
      · exact hDC
      · exact hself _

end Characterisation

end Maf
