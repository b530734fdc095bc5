/-
# Weak duality for cutting two trees to agreement

The lower bounds of `src/Solver/Approximation` walk through two trees, cut
edges, set leaves aside and keep a running sum.  Here is the part of the
argument that does not depend on how they do it.

A state has the active labels, the clusters cut off in the second tree and the
sum (`Dual`).  `meets f` counts, for the blocks of an agreement forest, the
components of the cut tree that hold an active label of the block.  It is the
number of blocks at the start and never negative, so the sum stays below the
number of blocks if every move adds at most as much to the sum as it takes from
`meets f` (`Move.potential`, `Moves.sum_add_meets_le`).
-/

import Maf.Agreement

namespace Maf
namespace Approx

variable {α β : Type*} [DecidableEq α]

/-- The component of a label after the edges above `K` are cut, named by the cut
clusters around the label. -/
def comp (K : Finset (Finset α)) (x : α) : Finset (Finset α) := K.filter (x ∈ ·)

/-- Two labels are in one component exactly when no cut cluster separates them. -/
theorem comp_eq_iff {K : Finset (Finset α)} {x y : α} :
    comp K x = comp K y ↔ ∀ Y ∈ K, x ∈ Y ↔ y ∈ Y := by
  exact Finset.filter_inj'.trans ⟨fun h Y hY => h hY, fun h Y hY => h Y hY⟩

/-- Cutting off another label changes nothing for `x`. -/
theorem comp_insert_singleton {K : Finset (Finset α)} {x w : α} (h : x ≠ w) :
    comp (insert {w} K) x = comp K x := by
  rw [comp, Finset.filter_insert, if_neg (by simpa using h)]
  rfl

/-- A state of a dual construction: the active labels, the clusters cut off in
the second tree, and the sum. -/
structure Dual (α : Type*) where
  active : Finset α
  cuts : Finset (Finset α)
  sum : ℤ

variable {S : Finset α} {C₁ C₂ : Finset (Finset α)}

/-- The moves that keep the sum sound.  `X` is the cluster of the first tree that
makes `u`, `v` siblings among the active labels. -/
inductive Move (C₁ C₂ : Finset (Finset α)) (s : Dual α) : Dual α → Prop where
  /-- An active label alone in its component is set aside and counts one. -/
  | finalize {w} (hw : w ∈ s.active)
      (halone : ∀ x ∈ s.active, comp s.cuts x = comp s.cuts w → x = w) :
      Move C₁ C₂ s ⟨s.active.erase w, insert {w} s.cuts, s.sum + 1⟩
  /-- A label is represented by another one. -/
  | merge {u} : Move C₁ C₂ s ⟨s.active.erase u, s.cuts, s.sum⟩
  /-- A sibling pair in different components counts one. -/
  | apart {u v X} (hX : X ∈ C₁) (huv : u ≠ v) (hcherry : X ∩ s.active = {u, v})
      (happart : comp s.cuts u ≠ comp s.cuts v) :
      Move C₁ C₂ s ⟨(s.active.erase u).erase v, insert {v} (insert {u} s.cuts), s.sum + 1⟩
  /-- A sibling pair separated by a pendant subtree `W` counts nothing; `P` is the
  child next to `W` and holds exactly one of the two. -/
  | pendant {u v X W P} (hX : X ∈ C₁) (huv : u ≠ v) (hcherry : X ∩ s.active = {u, v})
      (hjoined : comp s.cuts u = comp s.cuts v) (hW : W ∈ C₂) (hP : P ∈ C₂) (hWP : P ∪ W ∈ C₂)
      (hdisj : Disjoint P W) (hsep : u ∈ P ∧ v ∉ P ∪ W ∨ v ∈ P ∧ u ∉ P ∪ W) :
      Move C₁ C₂ s ⟨(s.active.erase u).erase v, insert {v} (insert {u} (insert W s.cuts)), s.sum⟩

section Cherry

variable {f : α → β} {A X : Finset α} {u v : α}

/-- Two blocks that both leave a sibling pair of the first tree are one. -/
theorem same_of_cherry (he : Embeds S C₁ f) (hA : A ⊆ S) (hX : X ∈ C₁)
    (hcherry : X ∩ A = {u, v}) {z w : α} (hz : z ∈ A) (hzu : z ≠ u) (hzv : z ≠ v)
    (hfz : f z = f u) (hw : w ∈ A) (hwu : w ≠ u) (hwv : w ≠ v) (hfw : f w = f v) :
    f u = f v := by
  have hu : u ∈ X ∩ A := hcherry ▸ by simp
  have hv : v ∈ X ∩ A := hcherry ▸ by simp
  rw [Finset.mem_inter] at hu hv
  have out : ∀ y ∈ A, y ≠ u → y ≠ v → y ∉ X := fun y hy hyu hyv hyX => by
    have hmem : y ∈ ({u, v} : Finset α) := hcherry ▸ Finset.mem_inter.2 ⟨hyX, hy⟩
    simp [hyu, hyv] at hmem
  exact he.disjoint X hX _ _ ⟨u, hA hu.2, z, hA hz, rfl, hfz, hu.1, out z hz hzu hzv⟩
    ⟨v, hA hv.2, w, hA hw, rfl, hfw, hv.1, out w hw hwu hwv⟩

/-- A third label of the block of a sibling pair lies farther out in the second
tree too. -/
theorem triple_of_cherry (ha : Agrees S C₁ C₂ f) (hA : A ⊆ S) (hX : X ∈ C₁)
    (hcherry : X ∩ A = {u, v}) {z : α} (hz : z ∈ A) (hzu : z ≠ u) (hzv : z ≠ v)
    (hfz : f z = f u) (huv : f u = f v) : Triple C₂ u v z := by
  have hu : u ∈ X ∩ A := hcherry ▸ by simp
  have hv : v ∈ X ∩ A := hcherry ▸ by simp
  rw [Finset.mem_inter] at hu hv
  refine ha u (hA hu.2) v (hA hv.2) z (hA hz) huv (huv.symm.trans hfz.symm)
    ⟨X, hX, hu.1, hv.1, fun hzX => ?_⟩
  have hmem : z ∈ ({u, v} : Finset α) := hcherry ▸ Finset.mem_inter.2 ⟨hzX, hz⟩
  simp [hzu, hzv] at hmem

/-- **A sibling pair in different components**: one of the two shares its block
and component with no other active label. -/
theorem lost_of_apart (h₂ : Hierarchy S C₂) (he : Embeds S C₁ f) (ha : Agrees S C₁ C₂ f)
    (hA : A ⊆ S) {K : Finset (Finset α)} (hK : K ⊆ C₂) (hX : X ∈ C₁)
    (hcherry : X ∩ A = {u, v}) (happart : comp K u ≠ comp K v) :
    (∀ x ∈ (A.erase u).erase v, f x = f u → comp K x ≠ comp K u) ∨
      ∀ x ∈ (A.erase u).erase v, f x = f v → comp K x ≠ comp K v := by
  by_contra hboth
  push Not at hboth
  obtain ⟨⟨z, hz, hfz, hcz⟩, w, hw, hfw, hcw⟩ := hboth
  simp only [Finset.mem_erase] at hz hw
  have huv := same_of_cherry he hA hX hcherry hz.2.2 hz.2.1 hz.1 hfz hw.2.2 hw.2.1 hw.1 hfw
  obtain ⟨Y, hY, huY, hvY, hzY⟩ :=
    triple_of_cherry ha hA hX hcherry hz.2.2 hz.2.1 hz.1 hfz huv
  obtain ⟨Y', hY', huY', hvY', hwY'⟩ :=
    triple_of_cherry ha hA hX hcherry hw.2.2 hw.2.1 hw.1 (hfw.trans huv.symm) huv
  -- a cut that separates `u` from `v` lies below both, so it would cut off `z` or `w`
  refine happart (comp_eq_iff.2 fun Z hZ => ⟨fun hu => ?_, fun hv => ?_⟩)
  · by_contra hv
    exact hzY (h₂.subset_of_mem (hK hZ) hY hu huY hvY hv ((comp_eq_iff.1 hcz Z hZ).2 hu))
  · by_contra hu
    exact hwY' (h₂.subset_of_mem (hK hZ) hY' hv hvY' huY' hu ((comp_eq_iff.1 hcw Z hZ).2 hv))

/-- **A sibling pair around a pendant subtree.**  At most one block with two
active labels in the component of the pair is split by cutting off `W`, and then
one of the pair shares its block and component with no other active label. -/
theorem lost_of_pendant (h₂ : Hierarchy S C₂) (hf : IsAgreement S [C₁, C₂] f)
    (hA : A ⊆ S) {K : Finset (Finset α)} (hX : X ∈ C₁) (hcherry : X ∩ A = {u, v})
    {W P : Finset α} (hP : P ∈ C₂) (hWP : P ∪ W ∈ C₂) (hdisj : Disjoint P W) (huP : u ∈ P)
    (hvP : v ∉ P ∪ W) {x y : α} (hx : x ∈ (A.erase u).erase v) (hy : y ∈ (A.erase u).erase v) (hfxy : f x = f y)
    (hxW : x ∈ W) (hyW : y ∉ W) :
    (∀ z ∈ (A.erase u).erase v, f z = f u → comp K z ≠ comp K u) ∨
      ∀ z ∈ (A.erase u).erase v, f z = f v → comp K z ≠ comp K v := by
  by_contra hboth
  push Not at hboth
  obtain ⟨⟨z, hz, hfz, -⟩, w, hw, hfw, -⟩ := hboth
  have he₁ : Embeds S C₁ f := hf.embeds _ (by simp)
  have he₂ : Embeds S C₂ f := hf.embeds _ (by simp)
  have ha : Agrees S C₁ C₂ f := hf.agree _ (by simp) _ (by simp)
  have hu : u ∈ A := (Finset.mem_inter.1 (hcherry ▸ by simp : u ∈ X ∩ A)).2
  simp only [Finset.mem_erase] at hx hy hz hw
  have huv := same_of_cherry he₁ hA hX hcherry hz.2.2 hz.2.1 hz.1 hfz hw.2.2 hw.2.1 hw.1 hfw
  -- a third label of the block of the pair lies outside `P ∪ W`
  have out : ∀ a ∈ A, a ≠ u → a ≠ v → f a = f u → a ∉ P ∪ W := by
    intro a haA hau hav hfa haPW
    obtain ⟨Y, hY, huY, hvY, haY⟩ := triple_of_cherry ha hA hX hcherry haA hau hav hfa huv
    exact haY (h₂.subset_of_mem hWP hY (Finset.mem_union_left _ huP) huY hvY hvP haPW)
  have hzPW := out z hz.2.2 hz.2.1 hz.1 hfz
  have hzP : z ∉ P := fun h => hzPW (Finset.mem_union_left _ h)
  have husedP : Used S f P (f u) := ⟨u, hA hu, z, hA hz.2.2, rfl, hfz, huP, hzP⟩
  have husedPW : Used S f (P ∪ W) (f u) :=
    ⟨u, hA hu, z, hA hz.2.2, rfl, hfz, Finset.mem_union_left _ huP, hzPW⟩
  -- so the block split by `W` is another one, but it shares an edge with the first
  refine out x hx.2.2 hx.2.1 hx.1 ?_ (Finset.mem_union_right _ hxW)
  by_cases hyP : y ∈ P
  · exact he₂.disjoint P hP _ _ ⟨y, hA hy.2.2, x, hA hx.2.2, hfxy.symm, rfl, hyP,
      fun h => Finset.disjoint_left.1 hdisj h hxW⟩ husedP
  · refine he₂.disjoint _ hWP _ _ ⟨x, hA hx.2.2, y, hA hy.2.2, rfl, hfxy.symm,
      Finset.mem_union_right _ hxW, fun h => ?_⟩ husedPW
    exact (Finset.mem_union.1 h).elim hyP hyW

end Cherry

variable [DecidableEq β]

/-- How often the blocks of `f` meet the components: pairs of a block and a
component with an active label in both. -/
def meets (f : α → β) (K : Finset (Finset α)) (A : Finset α) : ℕ :=
  (A.image fun x => (f x, comp K x)).card

/-- A larger set meets at least as many components. -/
theorem meets_mono {f : α → β} {K : Finset (Finset α)} {A B : Finset α} (h : A ⊆ B) :
    meets f K A ≤ meets f K B :=
  Finset.card_le_card (Finset.image_subset_image h)

/-- Before any cut the blocks meet one component each. -/
theorem meets_empty_cuts (f : α → β) (A : Finset α) : meets f ∅ A = (A.image f).card := by
  have h : (A.image fun x => (f x, comp ∅ x)) = (A.image f).image fun b => (b, ∅) := by
    rw [Finset.image_image]
    rfl
  rw [meets, h, Finset.card_image_of_injective _ fun b b' hb => (Prod.mk.inj hb).1]

/-- Cutting off a single label outside a set does not change what the set meets. -/
theorem meets_insert_singleton {f : α → β} {K : Finset (Finset α)} {A : Finset α} {w : α}
    (hw : w ∉ A) : meets f (insert {w} K) A = meets f K A := by
  unfold meets
  congr 1
  refine Finset.image_congr fun x hx => ?_
  have hxw : x ≠ w := fun h => hw (h ▸ Finset.mem_coe.1 hx)
  simp only [comp_insert_singleton hxw]

/-- A label whose block and component no other active label shares counts for
itself. -/
theorem meets_erase_lt {f : α → β} {K : Finset (Finset α)} {A B : Finset α} {w : α} (hw : w ∈ A)
    (hBA : B ⊆ A) (h : ∀ x ∈ B, f x = f w → comp K x ≠ comp K w) :
    meets f K B + 1 ≤ meets f K A := by
  refine Finset.card_lt_card ⟨Finset.image_subset_image hBA, fun hs => ?_⟩
  obtain ⟨x, hx, heq⟩ := Finset.mem_image.1 (hs (Finset.mem_image_of_mem _ hw))
  exact h x hx (congrArg Prod.fst heq) (congrArg Prod.snd heq)

omit [DecidableEq α] in
/-- When `k` separates what `g` separates, its image is at least as large. -/
theorem card_image_le_card_image {γ δ : Type*} [DecidableEq γ] [DecidableEq δ] {A : Finset α}
    {g : α → γ} {k : α → δ} (h : ∀ x ∈ A, ∀ y ∈ A, k x = k y → g x = g y) :
    (A.image g).card ≤ (A.image k).card := by
  have hinj : Set.InjOn Prod.fst ((A.image fun x => (k x, g x) : Finset (δ × γ)) : Set (δ × γ)) := by
    intro c hc d hd hcd
    obtain ⟨x, hx, rfl⟩ := Finset.mem_image.1 (Finset.mem_coe.1 hc)
    obtain ⟨y, hy, rfl⟩ := Finset.mem_image.1 (Finset.mem_coe.1 hd)
    exact Prod.ext hcd (h x hx y hy hcd)
  calc (A.image g).card = ((A.image fun x => (k x, g x)).image Prod.snd).card := by
        rw [Finset.image_image]; rfl
    _ ≤ (A.image fun x => (k x, g x)).card := Finset.card_image_le
    _ = ((A.image fun x => (k x, g x)).image Prod.fst).card :=
        (Finset.card_image_of_injOn hinj).symm
    _ = (A.image k).card := by rw [Finset.image_image]; rfl

/-- A cut above `W` tells two labels of a component apart only in the component
that `W` lies in. -/
theorem comp_eq_of_split (h₂ : Hierarchy S C₂) {K : Finset (Finset α)} (hK : K ⊆ C₂)
    {W : Finset α} (hW : W ∈ C₂) {a b x y : α} (ha : a ∈ W) (hb : b ∉ W)
    (hab : comp K a = comp K b) (hx : x ∈ W) (hy : y ∉ W) (hxy : comp K x = comp K y) :
    comp K a = comp K x := by
  have sub : ∀ {c d e : α}, c ∈ W → d ∉ W → comp K c = comp K d → e ∈ W →
      ∀ Y ∈ K, c ∈ Y → e ∈ Y := by
    intro c d e hc hd hcd he Y hY hcY
    exact h₂.subset_of_mem hW (hK hY) hc hcY ((comp_eq_iff.1 hcd Y hY).1 hcY) hd he
  exact comp_eq_iff.2 fun Y hY => ⟨sub ha hb hab hx Y hY, sub hx hy hxy ha Y hY⟩

/-- **Cutting off a pendant subtree between a sibling pair and setting the pair
aside takes nothing from `meets`.** -/
theorem meets_pendant_le {f : α → β} (h₂ : Hierarchy S C₂) (hf : IsAgreement S [C₁, C₂] f)
    {A : Finset α} (hA : A ⊆ S) {K : Finset (Finset α)} (hK : K ⊆ C₂) {X : Finset α} (hX : X ∈ C₁)
    {u v : α} (hcherry : X ∩ A = {u, v}) {W P : Finset α} (hW : W ∈ C₂) (hP : P ∈ C₂)
    (hWP : P ∪ W ∈ C₂) (hdisj : Disjoint P W) (huP : u ∈ P) (hvP : v ∉ P ∪ W) :
    meets f (insert W K) ((A.erase u).erase v) ≤ meets f K A := by
  have hsub : (A.erase u).erase v ⊆ A :=
    (Finset.erase_subset _ _).trans (Finset.erase_subset _ _)
  have hcomp : ∀ a b, comp K a = comp K b → (a ∈ W ↔ b ∈ W) →
      comp (insert W K) a = comp (insert W K) b := by
    intro a b hab hiff
    refine comp_eq_iff.2 fun Y hY => ?_
    rcases Finset.mem_insert.1 hY with rfl | hY
    · exact hiff
    · exact comp_eq_iff.1 hab Y hY
  by_cases hsplit : ∃ x ∈ (A.erase u).erase v, ∃ y ∈ (A.erase u).erase v,
      f x = f y ∧ comp K x = comp K y ∧ x ∈ W ∧ y ∉ W
  · obtain ⟨x, hx, y, hy, hfxy, hcxy, hxW, hyW⟩ := hsplit
    -- the value of the one of the pair that is lost stands in for the new component
    obtain ⟨c, hcA, hlost⟩ : ∃ c ∈ A, ∀ z ∈ (A.erase u).erase v, f z = f c →
        comp K z ≠ comp K c := by
      have hu : u ∈ A := (Finset.mem_inter.1 (hcherry ▸ by simp : u ∈ X ∩ A)).2
      have hv : v ∈ A := (Finset.mem_inter.1 (hcherry ▸ by simp : v ∈ X ∩ A)).2
      rcases lost_of_pendant h₂ hf hA hX hcherry hP hWP hdisj huP hvP hx hy hfxy hxW hyW with h | h
      · exact ⟨u, hu, h⟩
      · exact ⟨v, hv, h⟩
    refine le_trans (card_image_le_card_image (k := fun a =>
      if a ∈ W ∧ f a = f x ∧ comp K a = comp K x then (f c, comp K c) else (f a, comp K a)) ?_)
      (Finset.card_le_card ?_)
    · intro a ha b hb hab
      have unlike : ∀ z ∈ (A.erase u).erase v, (f c, comp K c) ≠ (f z, comp K z) := fun z hz h =>
        hlost z hz (Prod.mk.inj h).1.symm (Prod.mk.inj h).2.symm
      split_ifs at hab with h h' h'
      · rw [h.2.1, h'.2.1, hcomp a b (h.2.2.trans h'.2.2.symm) ⟨fun _ => h'.1, fun _ => h.1⟩]
      · exact absurd hab (unlike b hb)
      · exact absurd hab.symm (unlike a ha)
      · obtain ⟨hfab, hcab⟩ := Prod.mk.inj hab
        have same : ∀ a ∈ (A.erase u).erase v, ∀ b ∈ (A.erase u).erase v, f a = f b →
            comp K a = comp K b → ¬(a ∈ W ∧ f a = f x ∧ comp K a = comp K x) → a ∈ W → b ∈ W := by
          intro a ha b hb hfab hcab hna haW
          by_contra hbW
          have hfa : f a = f x := (hf.embeds C₂ (by simp)).disjoint W hW _ _
            ⟨a, hA (hsub ha), b, hA (hsub hb), rfl, hfab.symm, haW, hbW⟩
            ⟨x, hA (hsub hx), y, hA (hsub hy), rfl, hfxy.symm, hxW, hyW⟩
          exact hna ⟨haW, hfa, comp_eq_of_split h₂ hK hW haW hbW hcab hxW hyW hcxy⟩
        rw [hfab, hcomp a b hcab ⟨same a ha b hb hfab hcab h,
          same b hb a ha hfab.symm hcab.symm h'⟩]
    · intro d hd
      obtain ⟨a, ha, rfl⟩ := Finset.mem_image.1 hd
      split_ifs
      · exact Finset.mem_image_of_mem (fun x => (f x, comp K x)) hcA
      · exact Finset.mem_image_of_mem (fun x => (f x, comp K x)) (hsub ha)
  · push Not at hsplit
    refine le_trans (card_image_le_card_image (k := fun a => (f a, comp K a)) ?_)
      (meets_mono hsub)
    intro a ha b hb hab
    obtain ⟨hfab, hcab⟩ := Prod.mk.inj hab
    rw [hfab, hcomp a b hcab ⟨hsplit a ha b hb hfab hcab,
      hsplit b hb a ha hfab.symm hcab.symm⟩]

/-- **A move adds to the sum no more than it takes from `meets`.** -/
theorem Move.potential {f : α → β} (h₂ : Hierarchy S C₂) (hf : IsAgreement S [C₁, C₂] f)
    {s t : Dual α} (hA : s.active ⊆ S) (hK : s.cuts ⊆ C₂) (hm : Move C₁ C₂ s t) :
    t.active ⊆ S ∧ t.cuts ⊆ C₂ ∧
      t.sum + meets f t.cuts t.active ≤ s.sum + meets f s.cuts s.active := by
  have herase : ∀ x, s.active.erase x ⊆ S := fun x => (Finset.erase_subset _ _).trans hA
  have herase₂ : ∀ x y, (s.active.erase x).erase y ⊆ S := fun x y =>
    (Finset.erase_subset _ _).trans (herase x)
  have hinsert : ∀ {x K}, x ∈ s.active → K ⊆ C₂ → insert {x} K ⊆ C₂ := fun hx hK =>
    Finset.insert_subset (h₂.singleton _ (hA hx)) hK
  have hpair : ∀ {X u v}, X ∩ s.active = {u, v} → u ∈ s.active ∧ v ∈ s.active := by
    intro X u v hcherry
    have hu : u ∈ X ∩ s.active := hcherry ▸ by simp
    have hv : v ∈ X ∩ s.active := hcherry ▸ by simp
    exact ⟨(Finset.mem_inter.1 hu).2, (Finset.mem_inter.1 hv).2⟩
  cases hm with
  | @finalize w hw halone =>
      refine ⟨herase w, hinsert hw hK, ?_⟩
      dsimp only
      rw [meets_insert_singleton (Finset.notMem_erase w _)]
      have := meets_erase_lt (f := f) (K := s.cuts) hw (Finset.erase_subset w _) fun x hx _ hc =>
        Finset.ne_of_mem_erase hx (halone x (Finset.mem_of_mem_erase hx) hc)
      omega
  | @merge u =>
      refine ⟨herase _, hK, ?_⟩
      have := meets_mono (f := f) (K := s.cuts) (Finset.erase_subset u s.active)
      dsimp only
      omega
  | @apart u v X hX huv hcherry happart =>
      obtain ⟨hu, hv⟩ := hpair hcherry
      refine ⟨herase₂ u v, hinsert hv (hinsert hu hK), ?_⟩
      dsimp only
      rw [meets_insert_singleton (Finset.notMem_erase v _), meets_insert_singleton (by simp)]
      have hsub : (s.active.erase u).erase v ⊆ s.active :=
        (Finset.erase_subset _ _).trans (Finset.erase_subset _ _)
      have hlt : meets f s.cuts ((s.active.erase u).erase v) + 1 ≤ meets f s.cuts s.active := by
        rcases lost_of_apart h₂ (hf.embeds _ (by simp)) (hf.agree _ (by simp) _ (by simp)) hA hK hX
          hcherry happart with h | h
        · exact meets_erase_lt hu hsub h
        · exact meets_erase_lt hv hsub h
      omega
  | @pendant u v X W P hX huv hcherry hjoined hW hP hWP hdisj hsep =>
      obtain ⟨hu, hv⟩ := hpair hcherry
      refine ⟨herase₂ u v, hinsert hv (hinsert hu (Finset.insert_subset hW hK)), ?_⟩
      dsimp only
      rw [meets_insert_singleton (Finset.notMem_erase v _), meets_insert_singleton (by simp)]
      have hle : meets f (insert W s.cuts) ((s.active.erase u).erase v) ≤
          meets f s.cuts s.active := by
        rcases hsep with ⟨h, h'⟩ | ⟨h, h'⟩
        · exact meets_pendant_le h₂ hf hA hK hX hcherry hW hP hWP hdisj h h'
        · rw [Finset.erase_right_comm]
          exact meets_pendant_le h₂ hf hA hK hX (hcherry.trans (Finset.pair_comm u v)) hW hP hWP
            hdisj h h'
      omega

/-- A run of moves. -/
abbrev Moves (C₁ C₂ : Finset (Finset α)) : Dual α → Dual α → Prop :=
  Relation.ReflTransGen (Move C₁ C₂)

/-- **Weak duality.**  After any run of moves the sum and what is still met is at
most the number of blocks of any agreement forest. -/
theorem Moves.sum_add_meets_le {f : α → β} (h₂ : Hierarchy S C₂) (hf : IsAgreement S [C₁, C₂] f)
    {s : Dual α} (hm : Moves C₁ C₂ ⟨S, ∅, 0⟩ s) :
    s.active ⊆ S ∧ s.cuts ⊆ C₂ ∧ s.sum + meets f s.cuts s.active ≤ (S.image f).card := by
  induction hm with
  | refl => exact ⟨Finset.Subset.refl _, by simp, by simp [meets_empty_cuts]⟩
  | tail _ hstep ih =>
      obtain ⟨hA, hK, hle⟩ := ih
      obtain ⟨hA', hK', hle'⟩ := hstep.potential h₂ hf hA hK
      exact ⟨hA', hK', hle'.trans hle⟩

end Approx
end Maf
