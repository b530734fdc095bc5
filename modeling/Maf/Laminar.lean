/-
# Laminar families: the clusters of a rooted forest

A rooted forest whose leaves carry distinct labels is determined by its
clusters, the label sets below its nodes.  Two clusters are nested or disjoint,
and in a binary forest every cluster with two labels is the disjoint union of
two smaller ones (`Hierarchy`).  What a set of labels needs of a forest can be
said with clusters alone: the edge above a cluster lies on the path between two
labels exactly when the cluster holds one of them (`Crosses`), and `xy|z` holds
when some cluster holds `x` and `y` but not `z` (`Triple`).

Two operations on forests are wanted in these terms: restricting a forest to
fewer labels (`trace`) and cutting the edge above a cluster (`cutAt`).
-/

import Mathlib.Data.Finset.Card
import Mathlib.Data.Finset.Image
import Mathlib.Data.Finset.Union
import Mathlib.Tactic

namespace Maf

variable {α : Type*} [DecidableEq α]

/-- The edge above the cluster `X` is used by the label set `B`: `B` has a label
inside `X` and one outside. -/
def Crosses (X B : Finset α) : Prop := (∃ x ∈ B, x ∈ X) ∧ ∃ y ∈ B, y ∉ X

/-- The rooted triple `xy|z`: some cluster of `C` separates `x, y` from `z`. -/
def Triple (C : Finset (Finset α)) (x y z : α) : Prop := ∃ X ∈ C, x ∈ X ∧ y ∈ X ∧ z ∉ X

instance (C : Finset (Finset α)) (x y z : α) : Decidable (Triple C x y z) :=
  inferInstanceAs (Decidable (∃ X ∈ C, _))

/-- The clusters of a binary forest with label set `S`. -/
structure Hierarchy (S : Finset α) (C : Finset (Finset α)) : Prop where
  nonempty : ∀ X ∈ C, X.Nonempty
  subset : ∀ X ∈ C, X ⊆ S
  singleton : ∀ x ∈ S, {x} ∈ C
  nested : ∀ X ∈ C, ∀ Y ∈ C, X ⊆ Y ∨ Y ⊆ X ∨ Disjoint X Y
  split : ∀ X ∈ C, 2 ≤ X.card → ∃ Y ∈ C, ∃ Z ∈ C, Disjoint Y Z ∧ Y ∪ Z = X

namespace Hierarchy

variable {S : Finset α} {C D : Finset (Finset α)}

/-- Two clusters with a common label are nested. -/
theorem nested_of_mem (h : Hierarchy S C) {X Y : Finset α} (hX : X ∈ C) (hY : Y ∈ C) {x : α}
    (hx : x ∈ X) (hy : x ∈ Y) : X ⊆ Y ∨ Y ⊆ X := by
  rcases h.nested X hX Y hY with h | h | h
  · exact Or.inl h
  · exact Or.inr h
  · exact absurd hy (Finset.disjoint_left.1 h hx)

/-- A cluster that meets `X` and leaves it contains `X`. -/
theorem subset_of_mem (h : Hierarchy S C) {X Y : Finset α} (hX : X ∈ C) (hY : Y ∈ C) {x y : α}
    (hx : x ∈ X) (hxY : x ∈ Y) (hy : y ∈ Y) (hyX : y ∉ X) : X ⊆ Y :=
  (h.nested_of_mem hX hY hx hxY).elim id fun hs => absurd (hs hy) hyX

/-- Nothing lies between a cluster and its parent. -/
theorem union_subset_of_ssubset (h : Hierarchy S C) {P W V : Finset α} (hP : P ∈ C) (hW : W ∈ C)
    (hPW : P ∪ W ∈ C) (hd : Disjoint P W) (hV : V ∈ C) (hWV : W ⊂ V) : P ∪ W ⊆ V := by
  obtain ⟨w, hw⟩ := h.nonempty W hW
  rcases h.nested_of_mem hV hPW (hWV.1 hw) (Finset.mem_union_right _ hw) with hs | hs
  · obtain ⟨x, hx, hxW⟩ := Finset.exists_of_ssubset hWV
    have hxP : x ∈ P := (Finset.mem_union.1 (hs hx)).resolve_right hxW
    rcases h.nested_of_mem hV hP hx hxP with hVP | hPV
    · exact absurd hw (Finset.disjoint_left.1 hd (hVP (hWV.1 hw)))
    · exact Finset.union_subset hPV hWV.1
  · exact hs

/-- A set of labels lying in one tree has a least cluster around it. -/
theorem exists_least (C : Finset (Finset α)) {B : Finset α} (hB : ∃ X ∈ C, B ⊆ X) :
    ∃ Y ∈ C, B ⊆ Y ∧ ∀ X ∈ C, B ⊆ X → Y.card ≤ X.card := by
  obtain ⟨X, hX, hBX⟩ := hB
  obtain ⟨Y, hY, hmin⟩ := (C.filter (B ⊆ ·)).exists_min_image Finset.card
    ⟨X, Finset.mem_filter.2 ⟨hX, hBX⟩⟩
  rw [Finset.mem_filter] at hY
  exact ⟨Y, hY.1, hY.2, fun Z hZ hBZ => hmin Z (Finset.mem_filter.2 ⟨hZ, hBZ⟩)⟩

/-- The least cluster around two or more labels splits them between its
children. -/
theorem exists_split_of_least (h : Hierarchy S C) {B Y : Finset α} (hY : Y ∈ C) (hBY : B ⊆ Y)
    (hmin : ∀ X ∈ C, B ⊆ X → Y.card ≤ X.card) (hB : 2 ≤ B.card) :
    ∃ Y₁ ∈ C, ∃ Y₂ ∈ C, Disjoint Y₁ Y₂ ∧ Y₁ ∪ Y₂ = Y ∧ (∃ x ∈ B, x ∈ Y₁) ∧ ∃ y ∈ B, y ∈ Y₂ := by
  obtain ⟨Y₁, h₁, Y₂, h₂, hd, rfl⟩ := h.split Y hY (hB.trans (Finset.card_le_card hBY))
  have hpos₁ : 0 < Y₁.card := (h.nonempty Y₁ h₁).card_pos
  have hpos₂ : 0 < Y₂.card := (h.nonempty Y₂ h₂).card_pos
  have hcard : (Y₁ ∪ Y₂).card = Y₁.card + Y₂.card := Finset.card_union_of_disjoint hd
  refine ⟨Y₁, h₁, Y₂, h₂, hd, rfl, ?_, ?_⟩
  · by_contra hne
    push Not at hne
    have hB₂ : B ⊆ Y₂ := fun x hx => (Finset.mem_union.1 (hBY hx)).resolve_left (hne x hx)
    have := hmin Y₂ h₂ hB₂
    omega
  · by_contra hne
    push Not at hne
    have hB₁ : B ⊆ Y₁ := fun x hx => (Finset.mem_union.1 (hBY hx)).resolve_right (hne x hx)
    have := hmin Y₁ h₁ hB₁
    omega

/-- **The triples determine the clusters of a tree.**  Two binary trees on the
same labels with the same triples have the same clusters. -/
theorem subset_of_triple (hC : Hierarchy S C) (hD : Hierarchy S D) (hS : S ∈ D)
    (h : ∀ x ∈ S, ∀ y ∈ S, ∀ z ∈ S, Triple C x y z → Triple D x y z) : C ⊆ D := by
  intro X hX
  have hXS : X ⊆ S := hC.subset X hX
  rcases Nat.lt_or_ge X.card 2 with hsmall | hbig
  · have hone : X.card = 1 := by have := (hC.nonempty X hX).card_pos; omega
    obtain ⟨x, rfl⟩ := Finset.card_eq_one.1 hone
    exact hD.singleton x (hXS (Finset.mem_singleton_self x))
  · obtain ⟨Y, hY, hXY, hmin⟩ := exists_least D ⟨S, hS, hXS⟩
    obtain ⟨Y₁, h₁, Y₂, h₂, hd, rfl, ⟨x, hx, hx₁⟩, y, hy, hy₂⟩ :=
      hD.exists_split_of_least hY hXY hmin hbig
    -- a label `z` of the least cluster outside `X` would contradict the triple `xy|z` of `X`
    have key : ∀ z ∈ Y₁ ∪ Y₂, z ∈ X := by
      intro z hz
      by_contra hzX
      obtain ⟨Z, hZ, hxZ, hyZ, hzZ⟩ := h x (hXS hx) y (hXS hy) z (hD.subset _ hY hz)
        ⟨X, hX, hx, hy, hzX⟩
      have hY₁Z : Y₁ ⊆ Z :=
        hD.subset_of_mem h₁ hZ hx₁ hxZ hyZ fun hy₁ => Finset.disjoint_left.1 hd hy₁ hy₂
      have hY₂Z : Y₂ ⊆ Z :=
        hD.subset_of_mem h₂ hZ hy₂ hyZ hxZ fun hx₂ => Finset.disjoint_left.1 hd hx₁ hx₂
      rcases Finset.mem_union.1 hz with hz | hz
      · exact hzZ (hY₁Z hz)
      · exact hzZ (hY₂Z hz)
    rw [Finset.Subset.antisymm hXY key]
    exact hY

end Hierarchy

/-- The nodes of the least subtree spanning `B`, named by their clusters: those
that hold a label of `B` and lie below every node that holds all of `B`. -/
def span (C : Finset (Finset α)) (B : Finset α) : Finset (Finset α) :=
  C.filter fun X => (X ∩ B).Nonempty ∧ ∀ Y ∈ C, B ⊆ Y → X ⊆ Y

/-- The clusters that a block spans. -/
theorem mem_span {C : Finset (Finset α)} {B X : Finset α} :
    X ∈ span C B ↔ X ∈ C ∧ (∃ x ∈ X, x ∈ B) ∧ ∀ Y ∈ C, B ⊆ Y → X ⊆ Y := by
  simp [span, Finset.Nonempty]

/-- A node whose upper edge is used by `B` lies in the subtree `B` spans. -/
theorem mem_span_of_crosses {S : Finset α} {C : Finset (Finset α)} (h : Hierarchy S C)
    {B X : Finset α} (hX : X ∈ C) (hc : Crosses X B) : X ∈ span C B := by
  obtain ⟨⟨x, hx, hxX⟩, y, hy, hyX⟩ := hc
  exact mem_span.2 ⟨hX, ⟨x, hxX, hx⟩, fun Y hY hBY =>
    h.subset_of_mem hX hY hxX (hBY hx) (hBY hy) hyX⟩

/-- **One cut less than there are blocks** separates blocks that span disjoint
subtrees of a tree: cut the edges above the least clusters of all blocks but a topmost
one. -/
theorem exists_cuts {S : Finset α} {C P : Finset (Finset α)} (h : Hierarchy S C) (hS : S ∈ C)
    (hne : ∀ B ∈ P, B.Nonempty) (hsub : ∀ B ∈ P, B ⊆ S)
    (hdis : ∀ B ∈ P, ∀ B' ∈ P, B ≠ B' → Disjoint (span C B) (span C B')) (hP : P.Nonempty) :
    ∃ K ⊆ C, S ∉ K ∧ K.card + 1 = P.card ∧
      ∀ B ∈ P, ∀ B' ∈ P, B ≠ B' → ∀ x ∈ B, ∀ y ∈ B', ∃ X ∈ K, ¬(x ∈ X ↔ y ∈ X) := by
  have hleast : ∀ B : Finset α, ∃ T, B ∈ P → T ∈ C ∧ B ⊆ T ∧ ∀ X ∈ C, B ⊆ X → T ⊆ X := by
    intro B
    by_cases hB : B ∈ P
    · obtain ⟨T, hT, hBT, hmin⟩ := Hierarchy.exists_least C ⟨S, hS, hsub B hB⟩
      obtain ⟨b, hb⟩ := hne B hB
      refine ⟨T, fun _ => ⟨hT, hBT, fun X hX hBX => ?_⟩⟩
      rcases h.nested_of_mem hT hX (hBT hb) (hBX hb) with hTX | hXT
      · exact hTX
      · exact (Finset.eq_of_subset_of_card_le hXT (hmin X hX hBX)).symm.subset
    · exact ⟨S, fun hB' => absurd hB' hB⟩
  choose top htop using hleast
  have hspan : ∀ B ∈ P, top B ∈ span C B := fun B hB => by
    obtain ⟨hT, hBT, hmin⟩ := htop B hB
    obtain ⟨b, hb⟩ := hne B hB
    exact mem_span.2 ⟨hT, ⟨b, hBT hb, hb⟩, hmin⟩
  have hinj : ∀ B ∈ P, ∀ B' ∈ P, top B = top B' → B = B' := by
    intro B hB B' hB' he
    by_contra hne'
    exact Finset.disjoint_left.1 (hdis B hB B' hB' hne') (hspan B hB) (he ▸ hspan B' hB')
  -- a block below another one is separated from it by the edge above its least cluster
  have hbelow : ∀ B ∈ P, ∀ B' ∈ P, B ≠ B' → ∀ x ∈ B, ∀ y ∈ B', ¬top B' ⊆ top B → ¬(x ∈ top B ↔ y ∈ top B) := by
    intro B hB B' hB' hBB' x hx y hy hnot hiff
    have hyB := hiff.1 ((htop B hB).2.1 hx)
    obtain ⟨z, hz, hzB⟩ : ∃ z ∈ B', z ∉ top B := by
      by_contra hall
      push Not at hall
      exact hnot ((htop B' hB').2.2 _ (htop B hB).1 hall)
    exact Finset.disjoint_left.1 (hdis B hB B' hB' hBB') (hspan B hB)
      (mem_span_of_crosses h (htop B hB).1 ⟨⟨y, hy, hyB⟩, z, hz, hzB⟩)
  obtain ⟨R, hR, hmax⟩ := P.exists_max_image (fun B => (top B).card) hP
  have htopmost : ∀ B ∈ P, B ≠ R → ¬top R ⊆ top B := fun B hB hBR hsub' =>
    hBR (hinj B hB R hR (Finset.eq_of_subset_of_card_le hsub' (hmax B hB)).symm)
  refine ⟨(P.erase R).image top, fun X hX => ?_, fun hmem => ?_, ?_, fun B hB B' hB' hBB' x hx y hy => ?_⟩
  · obtain ⟨B, hB, rfl⟩ := Finset.mem_image.1 hX
    exact (htop B (Finset.mem_of_mem_erase hB)).1
  · obtain ⟨B, hB, he⟩ := Finset.mem_image.1 hmem
    obtain ⟨hBR, hB⟩ := Finset.mem_erase.1 hB
    exact htopmost B hB hBR (he ▸ h.subset _ (htop R hR).1)
  · rw [Finset.card_image_of_injOn, Finset.card_erase_add_one hR]
    exact fun B hB B' hB' he => hinj B (Finset.mem_of_mem_erase hB) B' (Finset.mem_of_mem_erase hB') he
  · have hcut : ∀ B ∈ P, B ≠ R → top B ∈ (P.erase R).image top := fun B hB hBR =>
      Finset.mem_image_of_mem _ (Finset.mem_erase.2 ⟨hBR, hB⟩)
    by_cases hBR : B = R
    · have hB'R : B' ≠ R := fun he => hBB' (hBR.trans he.symm)
      have hsep := hbelow B' hB' B hB (Ne.symm hBB') y hy x hx (hBR ▸ htopmost B' hB' hB'R)
      exact ⟨_, hcut B' hB' hB'R, fun hiff => hsep hiff.symm⟩
    by_cases hle : top B' ⊆ top B
    · have hB'R : B' ≠ R := fun he => htopmost B hB hBR (he ▸ hle)
      have hnot : ¬top B ⊆ top B' := fun hge => hBB' (hinj B hB B' hB' (hge.antisymm hle))
      have hsep := hbelow B' hB' B hB (Ne.symm hBB') y hy x hx hnot
      exact ⟨_, hcut B' hB' hB'R, fun hiff => hsep hiff.symm⟩
    · exact ⟨_, hcut B hB hBR, hbelow B hB B' hB' hBB' x hx y hy hle⟩

/-- **In a binary forest two disjoint blocks meet in a node exactly when they
share an edge.**  A common node has three edges and each of the blocks, not
being its single leaf, uses two of them. -/
theorem span_disjoint_iff {S : Finset α} {C : Finset (Finset α)} (h : Hierarchy S C)
    {B B' : Finset α} (hd : Disjoint B B') :
    Disjoint (span C B) (span C B') ↔ ∀ X ∈ C, ¬(Crosses X B ∧ Crosses X B') := by
  constructor
  · rintro hdis X hX ⟨hB, hB'⟩
    exact Finset.disjoint_left.1 hdis (mem_span_of_crosses h hX hB) (mem_span_of_crosses h hX hB')
  · intro hno
    rw [Finset.disjoint_left]
    intro X hXB hXB'
    obtain ⟨hX, ⟨x, hxX, hxB⟩, hleast⟩ := mem_span.1 hXB
    obtain ⟨-, ⟨x', hxX', hxB'⟩, hleast'⟩ := mem_span.1 hXB'
    have hne : x ≠ x' := fun he => Finset.disjoint_left.1 hd hxB (he ▸ hxB')
    have htwo : 2 ≤ X.card := Finset.one_lt_card.2 ⟨x, hxX, x', hxX', hne⟩
    obtain ⟨Y, hY, Z, hZ, hYZ, rfl⟩ := h.split X hX htwo
    -- a block that meets a child of `X` and spans `X` leaves that child
    have leaves : ∀ A : Finset α, (∀ W ∈ C, A ⊆ W → Y ∪ Z ⊆ W) → ∀ W ∈ C, W ⊂ Y ∪ Z →
        (∃ a ∈ A, a ∈ W) → Crosses W A := by
      intro A hA W hW hss hm
      refine ⟨hm, ?_⟩
      by_contra hall
      push Not at hall
      exact hss.2 (hA W hW hall)
    have hYss : Y ⊂ Y ∪ Z := by
      refine ⟨Finset.subset_union_left, fun hs => ?_⟩
      obtain ⟨z, hz⟩ := h.nonempty Z hZ
      exact Finset.disjoint_left.1 hYZ (hs (Finset.mem_union_right _ hz)) hz
    have hZss : Z ⊂ Y ∪ Z := by
      refine ⟨Finset.subset_union_right, fun hs => ?_⟩
      obtain ⟨y, hy⟩ := h.nonempty Y hY
      exact Finset.disjoint_left.1 hYZ hy (hs (Finset.mem_union_left _ hy))
    have cross : ∀ A : Finset α, (∀ W ∈ C, A ⊆ W → Y ∪ Z ⊆ W) → (∃ a ∈ A, a ∈ Y ∪ Z) →
        (Crosses Y A ∧ Crosses Z A) ∨ (Crosses Y A ∧ Crosses (Y ∪ Z) A) ∨
          (Crosses Z A ∧ Crosses (Y ∪ Z) A) := by
      rintro A hA ⟨a, haA, ha⟩
      by_cases hmY : ∃ a ∈ A, a ∈ Y
      · by_cases hmZ : ∃ a ∈ A, a ∈ Z
        · exact Or.inl ⟨leaves A hA Y hY hYss hmY, leaves A hA Z hZ hZss hmZ⟩
        · obtain ⟨hin, b, hbA, hbY⟩ := leaves A hA Y hY hYss hmY
          push Not at hmZ
          refine Or.inr (Or.inl ⟨⟨hin, b, hbA, hbY⟩, ⟨a, haA, ha⟩, b, hbA, fun hb => ?_⟩)
          exact (Finset.mem_union.1 hb).elim hbY (hmZ b hbA)
      · push Not at hmY
        have hmZ : ∃ a ∈ A, a ∈ Z :=
          ⟨a, haA, (Finset.mem_union.1 ha).resolve_left (hmY a haA)⟩
        obtain ⟨hin, b, hbA, hbZ⟩ := leaves A hA Z hZ hZss hmZ
        refine Or.inr (Or.inr ⟨⟨hin, b, hbA, hbZ⟩, ⟨a, haA, ha⟩, b, hbA, fun hb => ?_⟩)
        exact (Finset.mem_union.1 hb).elim (hmY b hbA) hbZ
    have c := cross B hleast ⟨x, hxB, hxX⟩
    have c' := cross B' hleast' ⟨x', hxB', hxX'⟩
    have hnY := hno Y hY
    have hnZ := hno Z hZ
    have hnX := hno _ hX
    tauto

/-- The clusters of the forest induced on the labels `B`. -/
def trace (C : Finset (Finset α)) (B : Finset α) : Finset (Finset α) :=
  (C.image (· ∩ B)).filter Finset.Nonempty

/-- The clusters that are left in a block. -/
theorem mem_trace {C : Finset (Finset α)} {B X : Finset α} :
    X ∈ trace C B ↔ X.Nonempty ∧ ∃ Y ∈ C, Y ∩ B = X := by
  simp [trace, and_comm]

/-- **The forest induced on fewer labels is a binary forest.** -/
theorem Hierarchy.trace {S : Finset α} {C : Finset (Finset α)} (h : Hierarchy S C) {B : Finset α}
    (hB : B ⊆ S) : Hierarchy B (trace C B) := by
  refine ⟨fun X hX => (mem_trace.1 hX).1, ?_, ?_, ?_, ?_⟩
  · intro X hX
    obtain ⟨-, Y, -, rfl⟩ := mem_trace.1 hX
    exact Finset.inter_subset_right
  · intro x hx
    exact mem_trace.2 ⟨Finset.singleton_nonempty x, {x}, h.singleton x (hB hx),
      Finset.singleton_inter_of_mem hx⟩
  · intro X hX Y hY
    obtain ⟨-, X', hX', rfl⟩ := mem_trace.1 hX
    obtain ⟨-, Y', hY', rfl⟩ := mem_trace.1 hY
    rcases h.nested X' hX' Y' hY' with h | h | h
    · exact Or.inl (Finset.inter_subset_inter_right h)
    · exact Or.inr (Or.inl (Finset.inter_subset_inter_right h))
    · exact Or.inr (Or.inr (h.mono Finset.inter_subset_left Finset.inter_subset_left))
  · intro X hX hcard
    obtain ⟨-, Y, hY, rfl⟩ := mem_trace.1 hX
    -- the least cluster around the trace is the one whose children cut it in two
    obtain ⟨Z, hZ, hsub, hmin⟩ := Hierarchy.exists_least C (B := Y ∩ B)
      ⟨Y, hY, Finset.inter_subset_left⟩
    obtain ⟨Z₁, h₁, Z₂, h₂, hd, rfl, ⟨x, hx, hx₁⟩, y, hy, hy₂⟩ :=
      h.exists_split_of_least hZ hsub hmin hcard
    have hZY : Z₁ ∪ Z₂ ⊆ Y := by
      rcases h.nested_of_mem hZ hY (hsub hx) (Finset.mem_inter.1 hx).1 with hs | hs
      · exact hs
      · exact (Finset.eq_of_subset_of_card_le hs (hmin Y hY Finset.inter_subset_left)).symm.subset
    have heq : (Z₁ ∪ Z₂) ∩ B = Y ∩ B :=
      Finset.Subset.antisymm (Finset.inter_subset_inter_right hZY)
        (Finset.subset_inter hsub Finset.inter_subset_right)
    refine ⟨Z₁ ∩ B, mem_trace.2 ⟨⟨x, ?_⟩, Z₁, h₁, rfl⟩, Z₂ ∩ B, mem_trace.2 ⟨⟨y, ?_⟩, Z₂, h₂, rfl⟩,
      hd.mono Finset.inter_subset_left Finset.inter_subset_left, ?_⟩
    · exact Finset.mem_inter.2 ⟨hx₁, (Finset.mem_inter.1 hx).2⟩
    · exact Finset.mem_inter.2 ⟨hy₂, (Finset.mem_inter.1 hy).2⟩
    · rw [← Finset.union_inter_distrib_right, heq]

/-- The induced forest has the triples of the forest. -/
theorem triple_trace {C : Finset (Finset α)} {B : Finset α} {x y z : α} (hx : x ∈ B) (hy : y ∈ B)
    (hz : z ∈ B) : Triple (trace C B) x y z ↔ Triple C x y z := by
  constructor
  · rintro ⟨X, hX, hxX, hyX, hzX⟩
    obtain ⟨-, Y, hY, rfl⟩ := mem_trace.1 hX
    exact ⟨Y, hY, (Finset.mem_inter.1 hxX).1, (Finset.mem_inter.1 hyX).1,
      fun h => hzX (Finset.mem_inter.2 ⟨h, hz⟩)⟩
  · rintro ⟨Y, hY, hxY, hyY, hzY⟩
    exact ⟨Y ∩ B, mem_trace.2 ⟨⟨x, Finset.mem_inter.2 ⟨hxY, hx⟩⟩, Y, hY, rfl⟩,
      Finset.mem_inter.2 ⟨hxY, hx⟩, Finset.mem_inter.2 ⟨hyY, hy⟩,
      fun h => hzY (Finset.mem_inter.1 h).1⟩

/-- The clusters after the edge above `X₀` is cut: `X₀` leaves every cluster
that properly contains it. -/
def cutAt (X₀ : Finset α) (C : Finset (Finset α)) : Finset (Finset α) :=
  C.image fun X => if X₀ ⊂ X then X \ X₀ else X

/-- The clusters after an edge is cut. -/
theorem mem_cutAt {C : Finset (Finset α)} {X₀ Y : Finset α} :
    Y ∈ cutAt X₀ C ↔ (∃ X ∈ C, X₀ ⊂ X ∧ X \ X₀ = Y) ∨ (Y ∈ C ∧ ¬X₀ ⊂ Y) := by
  simp only [cutAt, Finset.mem_image]
  constructor
  · rintro ⟨X, hX, rfl⟩
    split_ifs with h
    · exact Or.inl ⟨X, hX, h, rfl⟩
    · exact Or.inr ⟨hX, h⟩
  · rintro (⟨X, hX, h, rfl⟩ | ⟨hY, h⟩)
    · exact ⟨X, hX, if_pos h⟩
    · exact ⟨Y, hY, if_neg h⟩

end Maf
