/-
# Agreement forests in terms of clusters

A partition of a label set is given by a labelling `f`: two labels are in one
block when `f` is equal on them.  The blocks fit into a forest (`Embeds`) when
each lies in one tree and no edge is used by two of them; they form an
agreement forest of several forests (`IsAgreement`) when they fit into each and
every block has the same triples in all of them.

The surgeries that reductions and branching rules rest on are closure
properties of these notions: labels can be dropped (`IsAgreement.trace`), an
edge no block uses can be cut (`embeds_cutAt_iff`, `triple_cutAt`), and a block
can be split along a cluster (`IsAgreement.split`).
-/

import Maf.Laminar

namespace Maf

variable {α β γ : Type*}

/-- The block `b` of the labelling `f` uses the edge above `X`. -/
def Used (S : Finset α) (f : α → β) (X : Finset α) (b : β) : Prop :=
  ∃ x ∈ S, ∃ y ∈ S, f x = b ∧ f y = b ∧ x ∈ X ∧ y ∉ X

/-- The blocks of the labelling `f` fit into a forest: each lies in one tree, and
no edge is used by two blocks. -/
structure Embeds (S : Finset α) (C : Finset (Finset α)) (f : α → β) : Prop where
  joined : ∀ x ∈ S, ∀ y ∈ S, f x = f y → ∃ X ∈ C, x ∈ X ∧ y ∈ X
  disjoint : ∀ X ∈ C, ∀ b b', Used S f X b → Used S f X b' → b = b'

/-- The blocks of the labelling `f` have the triples of `C` in `D`. -/
def Agrees (S : Finset α) (C D : Finset (Finset α)) (f : α → β) : Prop :=
  ∀ x ∈ S, ∀ y ∈ S, ∀ z ∈ S, f x = f y → f y = f z → Triple C x y z → Triple D x y z

/-- **The blocks of the labelling `f` are an agreement forest** of the forests with
clusters `𝒞`. -/
structure IsAgreement (S : Finset α) (𝒞 : List (Finset (Finset α))) (f : α → β) : Prop where
  embeds : ∀ C ∈ 𝒞, Embeds S C f
  agree : ∀ C ∈ 𝒞, ∀ D ∈ 𝒞, Agrees S C D f

section Decidable

variable [DecidableEq α] [DecidableEq β] [Fintype β] {S : Finset α} {f : α → β}

instance (X : Finset α) (b : β) : Decidable (Used S f X b) :=
  inferInstanceAs (Decidable (∃ x ∈ S, ∃ y ∈ S, _ ∧ _ ∧ _ ∧ _))

instance (C : Finset (Finset α)) : Decidable (Embeds S C f) :=
  decidable_of_iff ((∀ x ∈ S, ∀ y ∈ S, f x = f y → ∃ X ∈ C, x ∈ X ∧ y ∈ X) ∧
    ∀ X ∈ C, ∀ b b', Used S f X b → Used S f X b' → b = b')
    ⟨fun ⟨h₁, h₂⟩ => ⟨h₁, h₂⟩, fun ⟨h₁, h₂⟩ => ⟨h₁, h₂⟩⟩

instance (C D : Finset (Finset α)) : Decidable (Agrees S C D f) :=
  inferInstanceAs (Decidable (∀ x ∈ S, ∀ y ∈ S, ∀ z ∈ S, _ → _ → Triple C x y z → Triple D x y z))

instance (𝒞 : List (Finset (Finset α))) : Decidable (IsAgreement S 𝒞 f) :=
  decidable_of_iff ((∀ C ∈ 𝒞, Embeds S C f) ∧ ∀ C ∈ 𝒞, ∀ D ∈ 𝒞, Agrees S C D f)
    ⟨fun ⟨h₁, h₂⟩ => ⟨h₁, h₂⟩, fun ⟨h₁, h₂⟩ => ⟨h₁, h₂⟩⟩

end Decidable

/-- Two labellings have the same blocks. -/
def SameBlocks (S : Finset α) (f : α → β) (g : α → γ) : Prop :=
  ∀ x ∈ S, ∀ y ∈ S, f x = f y ↔ g x = g y

/-- Having the same blocks is symmetric. -/
theorem SameBlocks.symm {S : Finset α} {f : α → β} {g : α → γ} (h : SameBlocks S f g) :
    SameBlocks S g f :=
  fun x hx y hy => (h x hx y hy).symm

/-- Only the blocks of a labelling matter. -/
theorem Embeds.congr {S : Finset α} {C : Finset (Finset α)} {f : α → β} {g : α → γ}
    (h : SameBlocks S f g) (he : Embeds S C f) : Embeds S C g := by
  refine ⟨fun x hx y hy hxy => he.joined x hx y hy ((h x hx y hy).2 hxy), ?_⟩
  rintro X hX b b' ⟨x, hx, y, hy, rfl, hxy, hxX, hyX⟩ ⟨x', hx', y', hy', rfl, hxy', hxX', hyX'⟩
  refine (h x hx x' hx').1 (he.disjoint X hX _ _ ⟨x, hx, y, hy, rfl, ?_, hxX, hyX⟩
    ⟨x', hx', y', hy', rfl, ?_, hxX', hyX'⟩)
  · exact (h y hy x hx).2 hxy
  · exact (h y' hy' x' hx').2 hxy'

/-- Agreement depends on the blocks only. -/
theorem Agrees.congr {S : Finset α} {C D : Finset (Finset α)} {f : α → β} {g : α → γ}
    (h : SameBlocks S f g) (ha : Agrees S C D f) : Agrees S C D g :=
  fun x hx y hy z hz hxy hyz =>
    ha x hx y hy z hz ((h x hx y hy).2 hxy) ((h y hy z hz).2 hyz)

/-- Being an agreement forest depends on the blocks only. -/
theorem IsAgreement.congr {S : Finset α} {𝒞 : List (Finset (Finset α))} {f : α → β} {g : α → γ}
    (h : SameBlocks S f g) (ha : IsAgreement S 𝒞 f) : IsAgreement S 𝒞 g :=
  ⟨fun C hC => (ha.embeds C hC).congr h, fun C hC D hD => (ha.agree C hC D hD).congr h⟩

/-- Singletons form an agreement forest. -/
theorem isAgreement_of_injOn {S : Finset α} {𝒞 : List (Finset (Finset α))} {f : α → β}
    (hS : ∀ C ∈ 𝒞, ∀ x ∈ S, {x} ∈ C) (hf : Set.InjOn f S) : IsAgreement S 𝒞 f := by
  refine ⟨fun C hC => ⟨fun x hx y hy hxy => ?_, ?_⟩, ?_⟩
  · obtain rfl := hf hx hy hxy
    exact ⟨{x}, hS C hC x hx, by simp, by simp⟩
  · rintro X - b b' ⟨x, hx, y, hy, rfl, hxy, hxX, hyX⟩ -
    exact absurd (hf hy hx hxy ▸ hxX) hyX
  · rintro C - D - x hx y hy z hz - hyz ⟨X, -, -, hyX, hzX⟩
    exact absurd (hf hy hz hyz ▸ hyX) hzX

variable [DecidableEq α]

/-- The labels of a block lie in one cluster. -/
theorem Embeds.exists_subset {S : Finset α} {C : Finset (Finset α)} {f : α → β}
    (h : Hierarchy S C) (he : Embeds S C f) {B : Finset α} (hB : B ⊆ S)
    (hf : ∀ x ∈ B, ∀ y ∈ B, f x = f y) (hne : B.Nonempty) : ∃ X ∈ C, B ⊆ X := by
  induction hne using Finset.Nonempty.cons_induction with
  | singleton a => exact ⟨{a}, h.singleton a (hB (by simp)), Finset.Subset.refl _⟩
  | cons a s ha hs ih =>
      have hsub : s ⊆ Finset.cons a s ha := Finset.subset_cons ha
      obtain ⟨X, hX, hsX⟩ := ih (hsub.trans hB) fun x hx y hy => hf x (hsub hx) y (hsub hy)
      obtain ⟨b, hb⟩ := hs
      obtain ⟨Y, hY, haY, hbY⟩ := he.joined a (hB (Finset.mem_cons_self a s)) b (hB (hsub hb))
        (hf a (Finset.mem_cons_self a s) b (hsub hb))
      rcases h.nested_of_mem hX hY (hsX hb) hbY with hXY | hYX
      · exact ⟨Y, hY, Finset.cons_subset.2 ⟨haY, hsX.trans hXY⟩⟩
      · exact ⟨X, hX, Finset.cons_subset.2 ⟨hYX haY, hsX⟩⟩

/-- **Cutting an edge forbids exactly its use.**  The blocks fit into the forest
with the edge above `X₀` cut when they fit into the forest and none of them
uses that edge. -/
theorem embeds_cutAt_iff {S : Finset α} {C : Finset (Finset α)} {f : α → β} (h : Hierarchy S C)
    {X₀ : Finset α} (hX₀ : X₀ ∈ C) :
    Embeds S (cutAt X₀ C) f ↔ Embeds S C f ∧ ∀ b, ¬Used S f X₀ b := by
  constructor
  · intro he
    have hunused : ∀ b, ¬Used S f X₀ b := by
      rintro b ⟨x, hx, y, hy, rfl, hxy, hxX, hyX⟩
      obtain ⟨Y, hY, hxY, hyY⟩ := he.joined x hx y hy hxy.symm
      rcases mem_cutAt.1 hY with ⟨X, -, -, rfl⟩ | ⟨hYC, hss⟩
      · exact (Finset.mem_sdiff.1 hxY).2 hxX
      · exact hss ⟨h.subset_of_mem hX₀ hYC hxX hxY hyY hyX, fun hs => hyX (hs hyY)⟩
    refine ⟨⟨fun x hx y hy hxy => ?_, ?_⟩, hunused⟩
    · obtain ⟨Y, hY, hxY, hyY⟩ := he.joined x hx y hy hxy
      rcases mem_cutAt.1 hY with ⟨X, hX, -, rfl⟩ | ⟨hYC, -⟩
      · exact ⟨X, hX, (Finset.mem_sdiff.1 hxY).1, (Finset.mem_sdiff.1 hyY).1⟩
      · exact ⟨Y, hYC, hxY, hyY⟩
    · intro X hX b b' hb hb'
      by_cases hss : X₀ ⊂ X
      · have used : ∀ c, Used S f X c → Used S f (X \ X₀) c := by
          rintro c ⟨x, hx, y, hy, hxc, hyc, hxX, hyX⟩
          refine ⟨x, hx, y, hy, hxc, hyc, Finset.mem_sdiff.2 ⟨hxX, fun hx₀ => ?_⟩,
            fun hy' => hyX (Finset.mem_sdiff.1 hy').1⟩
          exact hunused c ⟨x, hx, y, hy, hxc, hyc, hx₀, fun hy₀ => hyX (hss.1 hy₀)⟩
        exact he.disjoint _ (mem_cutAt.2 (Or.inl ⟨X, hX, hss, rfl⟩)) b b' (used b hb) (used b' hb')
      · exact he.disjoint X (mem_cutAt.2 (Or.inr ⟨hX, hss⟩)) b b' hb hb'
  · rintro ⟨he, hunused⟩
    refine ⟨fun x hx y hy hxy => ?_, ?_⟩
    · obtain ⟨X, hX, hxX, hyX⟩ := he.joined x hx y hy hxy
      by_cases hss : X₀ ⊂ X
      · by_cases hx₀ : x ∈ X₀
        · refine ⟨X₀, mem_cutAt.2 (Or.inr ⟨hX₀, fun h => h.2 (Finset.Subset.refl _)⟩), hx₀, ?_⟩
          by_contra hy₀
          exact hunused _ ⟨x, hx, y, hy, rfl, hxy.symm, hx₀, hy₀⟩
        · refine ⟨X \ X₀, mem_cutAt.2 (Or.inl ⟨X, hX, hss, rfl⟩), Finset.mem_sdiff.2 ⟨hxX, hx₀⟩,
            Finset.mem_sdiff.2 ⟨hyX, fun hy₀ => ?_⟩⟩
          exact hunused _ ⟨y, hy, x, hx, rfl, hxy, hy₀, hx₀⟩
      · exact ⟨X, mem_cutAt.2 (Or.inr ⟨hX, hss⟩), hxX, hyX⟩
    · intro Y hY b b' hb hb'
      rcases mem_cutAt.1 hY with ⟨X, hX, hss, rfl⟩ | ⟨hYC, -⟩
      · have used : ∀ c, Used S f (X \ X₀) c → Used S f X c := by
          rintro c ⟨x, hx, y, hy, hxc, hyc, hxX, hyX⟩
          rw [Finset.mem_sdiff] at hxX hyX
          refine ⟨x, hx, y, hy, hxc, hyc, hxX.1, fun hyX' => ?_⟩
          have hy₀ : y ∈ X₀ := by_contra fun h => hyX ⟨hyX', h⟩
          exact hunused c ⟨y, hy, x, hx, hyc, hxc, hy₀, hxX.2⟩
        exact he.disjoint X hX b b' (used b hb) (used b' hb')
      · exact he.disjoint Y hYC b b' hb hb'

/-- Cutting an edge no block uses keeps the triples of every block. -/
theorem triple_cutAt {S : Finset α} {C : Finset (Finset α)} {f : α → β} {X₀ : Finset α}
    (hunused : ∀ b, ¬Used S f X₀ b) {x y z : α} (hx : x ∈ S) (hy : y ∈ S) (hz : z ∈ S)
    (hxz : f x = f z) (hyz : f y = f z) : Triple (cutAt X₀ C) x y z ↔ Triple C x y z := by
  constructor
  · rintro ⟨Y, hY, hxY, hyY, hzY⟩
    rcases mem_cutAt.1 hY with ⟨X, hX, -, rfl⟩ | ⟨hYC, -⟩
    · rw [Finset.mem_sdiff] at hxY hyY hzY
      refine ⟨X, hX, hxY.1, hyY.1, fun hzX => ?_⟩
      have hz₀ : z ∈ X₀ := by_contra fun h => hzY ⟨hzX, h⟩
      exact hunused _ ⟨z, hz, x, hx, rfl, hxz, hz₀, hxY.2⟩
    · exact ⟨Y, hYC, hxY, hyY, hzY⟩
  · rintro ⟨X, hX, hxX, hyX, hzX⟩
    by_cases hss : X₀ ⊂ X
    · have hz₀ : z ∉ X₀ := fun h => hzX (hss.1 h)
      have hx₀ : x ∉ X₀ := fun h => hunused _ ⟨x, hx, z, hz, rfl, hxz.symm, h, hz₀⟩
      have hy₀ : y ∉ X₀ := fun h => hunused _ ⟨y, hy, z, hz, rfl, hyz.symm, h, hz₀⟩
      exact ⟨X \ X₀, mem_cutAt.2 (Or.inl ⟨X, hX, hss, rfl⟩), Finset.mem_sdiff.2 ⟨hxX, hx₀⟩,
        Finset.mem_sdiff.2 ⟨hyX, hy₀⟩, fun h => hzX (Finset.mem_sdiff.1 h).1⟩
    · exact ⟨X, mem_cutAt.2 (Or.inr ⟨hX, hss⟩), hxX, hyX, hzX⟩

end Maf
