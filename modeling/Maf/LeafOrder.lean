/-
# The clusters of an order of the leaves

Some leaves of a tree are written down in an order in which every cluster is an interval
(`IsLeafOrder`).  Between two neighbours stands the level of the lowest cluster around
them.  The range of a gap reaches on both sides as far as the levels are not smaller, and to
the right only as far as they are larger (`IsRange`); it is the interval of the lowest
cluster around the gap (`IsRange.mem_iff`), and every cluster with two of the leaves is
found in this way (`exists_gap`).

Two trees induce the same topology on the leaves exactly when the ranges of one of them,
read in the order of the other, are ranges of the other (`forall_ranges_iff`,
`trace_eq_iff`).
-/

import Maf.PathPairs
import Maf.SparseTable

namespace Maf

variable {α : Type*} [DecidableEq α] {S : Finset α} {C D : Finset (Finset α)} {o o' : ℕ → α} {m : ℕ}
  {lev : Finset α → ℕ} {a : ℕ → ℕ} {i l h : ℕ} {X : Finset α}

/-- An order of leaves in which every cluster is an interval. -/
structure IsLeafOrder (C : Finset (Finset α)) (o : ℕ → α) (m : ℕ) : Prop where
  inj : ∀ i < m, ∀ j < m, o i = o j → i = j
  convex : ∀ X ∈ C, ∀ i j k, i < j → j < k → k < m → o i ∈ X → o k ∈ X → o j ∈ X

/-- The lowest cluster around two leaves. -/
structure IsJoin (C : Finset (Finset α)) (x y : α) (X : Finset α) : Prop where
  mem : X ∈ C
  left : x ∈ X
  right : y ∈ X
  least : ∀ Y ∈ C, x ∈ Y → y ∈ Y → X ⊆ Y

/-- The levels in the gaps of the order: they grow from a cluster to a smaller one. -/
structure IsLevels (C : Finset (Finset α)) (o : ℕ → α) (m : ℕ) (lev : Finset α → ℕ) (a : ℕ → ℕ) : Prop where
  lt : ∀ X ∈ C, ∀ Y ∈ C, X ⊂ Y → lev Y < lev X
  gap : ∀ i, i + 1 < m → ∃ X, IsJoin C (o i) (o (i + 1)) X ∧ a i = lev X

/-- The range of the gap after position `i`. -/
structure IsRange (a : ℕ → ℕ) (m i l h : ℕ) : Prop where
  le : l ≤ i
  lt : i < h
  lt_length : h < m
  left : ∀ j, l ≤ j → j < i → a i ≤ a j
  right : ∀ j, i < j → j < h → a i < a j
  stop_left : l = 0 ∨ a (l - 1) < a i
  stop_right : h + 1 = m ∨ a h ≤ a i

omit [DecidableEq α] in
/-- Two labels have one join. -/
theorem IsJoin.unique {x y : α} {Y : Finset α} (h : IsJoin C x y X) (h' : IsJoin C x y Y) : X = Y :=
  Finset.Subset.antisymm (h.least Y h'.mem h'.left h'.right) (h'.least X h.mem h.left h.right)

/-- The lowest cluster around leaves of both parts is the whole. -/
theorem IsJoin.eq_union (hC : Hierarchy S C) {x y : α} {Y Z : Finset α} (h : IsJoin C x y X) (hY : Y ∈ C) (hZ : Z ∈ C)
    (hd : Disjoint Y Z) (hmem : Y ∪ Z ∈ C) (hx : x ∈ Y) (hy : y ∈ Z) : X = Y ∪ Z := by
  have hYX := hC.subset_of_mem hY h.mem hx h.left h.right (Finset.disjoint_right.1 hd hy)
  have hZX := hC.subset_of_mem hZ h.mem hy h.right h.left (Finset.disjoint_left.1 hd hx)
  exact Finset.Subset.antisymm (h.least _ hmem (Finset.mem_union_left _ hx) (Finset.mem_union_right _ hy))
    (Finset.union_subset hYX hZX)

/-- The two leaves lie in different parts of the lowest cluster around them. -/
theorem IsJoin.exists_parts (hC : Hierarchy S C) {x y : α} (h : IsJoin C x y X) (hne : x ≠ y) :
    ∃ Y ∈ C, ∃ Z ∈ C, Disjoint Y Z ∧ Y ∪ Z = X ∧ x ∈ Y ∧ y ∈ Z := by
  obtain ⟨Y, hY, Z, hZ, hd, rfl⟩ := hC.split X h.mem (Finset.one_lt_card.2 ⟨x, h.left, y, h.right, hne⟩)
  have apart : ∀ {Y Z : Finset α}, Y ∈ C → Z ∈ C → Disjoint Y Z → IsJoin C x y (Y ∪ Z) → x ∈ Y → y ∈ Z := by
    intro Y Z hY hZ hd h hx
    refine (Finset.mem_union.1 h.right).resolve_left fun hy => ?_
    obtain ⟨z, hz⟩ := hC.nonempty Z hZ
    exact Finset.disjoint_right.1 hd hz (h.least Y hY hx hy (Finset.mem_union_right _ hz))
  rcases Finset.mem_union.1 h.left with hx | hx
  · exact ⟨Y, hY, Z, hZ, hd, rfl, hx, apart hY hZ hd h hx⟩
  · refine ⟨Z, hZ, Y, hY, hd.symm, Finset.union_comm Z Y, hx, ?_⟩
    exact apart hZ hY hd.symm (Finset.union_comm Y Z ▸ h) hx

omit [DecidableEq α] in
/-- The levels inside a cluster. -/
theorem IsLevels.le_of_subset (hlev : IsLevels C o m lev a) {Y : Finset α} (hX : X ∈ C) (hY : Y ∈ C) (h : X ⊆ Y) :
    lev Y ≤ lev X := by
  rcases eq_or_ne X Y with rfl | hne
  · exact le_rfl
  · exact (hlev.lt X hX Y hY (Finset.ssubset_iff_subset_ne.2 ⟨h, hne⟩)).le

/-- A gap at the border of a cluster has a smaller level. -/
theorem IsLevels.lt_of_border (hC : Hierarchy S C) (hlev : IsLevels C o m lev a) {j : ℕ} (hj : j + 1 < m) (hX : X ∈ C)
    (h : o j ∈ X ∧ o (j + 1) ∉ X ∨ o j ∉ X ∧ o (j + 1) ∈ X) : a j < lev X := by
  obtain ⟨Z, hZ, haj⟩ := hlev.gap j hj
  rw [haj]
  refine hlev.lt X hX Z hZ.mem ?_
  rcases h with ⟨hin, hout⟩ | ⟨hout, hin⟩
  · exact Finset.ssubset_iff_subset_ne.2 ⟨hC.subset_of_mem hX hZ.mem hin hZ.left hZ.right hout,
      fun he => hout (he ▸ hZ.right)⟩
  · exact Finset.ssubset_iff_subset_ne.2 ⟨hC.subset_of_mem hX hZ.mem hin hZ.right hZ.left hout,
      fun he => hout (he ▸ hZ.left)⟩

omit [DecidableEq α] in
/-- A gap inside a cluster has no smaller level. -/
theorem IsLevels.le_of_inside (hlev : IsLevels C o m lev a) {j : ℕ} (hj : j + 1 < m) (hX : X ∈ C) (hin : o j ∈ X)
    (hin' : o (j + 1) ∈ X) : lev X ≤ a j := by
  obtain ⟨Z, hZ, haj⟩ := hlev.gap j hj
  rw [haj]
  exact hlev.le_of_subset hZ.mem hX (hZ.least X hX hin hin')

/-- **The range of a gap is the interval of the lowest cluster around it.** -/
theorem IsRange.mem_iff (hC : Hierarchy S C) (ho : IsLeafOrder C o m) (hlev : IsLevels C o m lev a)
    (hr : IsRange a m i l h) (hX : IsJoin C (o i) (o (i + 1)) X) {p : ℕ} (hp : p < m) : o p ∈ X ↔ l ≤ p ∧ p ≤ h := by
  have hlt := hr.lt
  have hle := hr.le
  have hm := hr.lt_length
  have hai : a i = lev X := by
    obtain ⟨Z, hZ, hai⟩ := hlev.gap i (by omega)
    rw [hai, hZ.unique hX]
  -- inside the range no gap leaves the cluster
  have hleft : ∀ k, l ≤ i - k → k ≤ i → o (i - k) ∈ X := by
    intro k
    induction k with
    | zero => exact fun _ _ => hX.left
    | succ k ih =>
        intro hk hki
        by_contra hout
        have hin := ih (by omega) (by omega)
        rw [show i - k = i - (k + 1) + 1 by omega] at hin
        have h₁ := hlev.lt_of_border hC (by omega) hX.mem (Or.inr ⟨hout, hin⟩)
        have h₂ := hr.left (i - (k + 1)) hk (by omega)
        omega
  have hright : ∀ k, i + 1 + k ≤ h → o (i + 1 + k) ∈ X := by
    intro k
    induction k with
    | zero => exact fun _ => hX.right
    | succ k ih =>
        intro hk
        by_contra hout
        have h₁ := hlev.lt_of_border hC (by omega) hX.mem (Or.inl ⟨ih (by omega), hout⟩)
        have h₂ := hr.right (i + 1 + k) (by omega) (by omega)
        omega
  constructor
  · intro hin
    constructor
    · by_contra hlp
      have hstop := hr.stop_left.resolve_left (by omega)
      have hbefore : o (l - 1) ∈ X := by
        rcases Nat.lt_or_ge p (l - 1) with hlt' | hge
        · exact ho.convex X hX.mem p (l - 1) i hlt' (by omega) (by omega) hin hX.left
        · rwa [show l - 1 = p by omega]
      have hl : o (l - 1 + 1) ∈ X := by
        have := hleft (i - l) (by omega) (by omega)
        rwa [show i - (i - l) = l - 1 + 1 by omega] at this
      have := hlev.le_of_inside (by omega) hX.mem hbefore hl
      omega
    · by_contra hph
      have hstop := hr.stop_right.resolve_left (by omega)
      have hafter : o (h + 1) ∈ X := by
        rcases Nat.lt_or_ge (h + 1) p with hlt' | hge
        · exact ho.convex X hX.mem i (h + 1) p (by omega) hlt' hp hX.left hin
        · rwa [show h + 1 = p by omega]
      have hne : o i ≠ o (i + 1) := fun he => by
        have := ho.inj i (by omega) (i + 1) (by omega) he
        omega
      obtain ⟨Y, hY, Z, hZ, hd, rfl, hi, hi'⟩ := hX.exists_parts hC hne
      -- everything after the gap lies in the second part
      have hsecond : ∀ j, i < j → j < m → o j ∈ Y ∪ Z → o j ∈ Z := by
        intro j hj hjm hjX
        rcases eq_or_ne j (i + 1) with rfl | hne'
        · exact hi'
        · refine (Finset.mem_union.1 hjX).resolve_left fun hjY => ?_
          exact Finset.disjoint_left.1 hd (ho.convex Y hY i (i + 1) j (by omega) (by omega) hjm hi hjY) hi'
      have hh : o h ∈ Y ∪ Z := by
        have := hright (h - i - 1) (by omega)
        rwa [show i + 1 + (h - i - 1) = h by omega] at this
      have h₁ := hlev.le_of_inside (j := h) (by omega) hZ (hsecond h (by omega) (by omega) hh)
        (hsecond (h + 1) (by omega) (by omega) hafter)
      have h₂ := hlev.lt Z hZ (Y ∪ Z) hX.mem (Finset.ssubset_iff_subset_ne.2 ⟨Finset.subset_union_right,
        fun he => Finset.disjoint_left.1 hd hi (he ▸ Finset.mem_union_left _ hi)⟩)
      omega
  · rintro ⟨hl, hh⟩
    rcases Nat.lt_or_ge i p with hip | hpi
    · have := hright (p - i - 1) (by omega)
      rwa [show i + 1 + (p - i - 1) = p by omega] at this
    · have := hleft (i - p) (by omega) (by omega)
      rwa [show i - (i - p) = p by omega] at this

/-- Between a position in one part and a later one in the other part the order passes from
one part to the other. -/
theorem exists_change {P Q : ℕ → Prop} {p q : ℕ} (hpq : p < q) (hp : P p) (hq : ¬P q)
    (hall : ∀ j, p ≤ j → j ≤ q → P j ∨ Q j) : ∃ i, p ≤ i ∧ i < q ∧ P i ∧ Q (i + 1) := by
  induction q with
  | zero => exact absurd hpq (Nat.not_lt_zero p)
  | succ q ih =>
      by_cases hPq : P q
      · exact ⟨q, by omega, by omega, hPq, (hall (q + 1) (by omega) le_rfl).resolve_left hq⟩
      · have hne : p ≠ q := fun he => hPq (he ▸ hp)
        obtain ⟨i, h₁, h₂, h₃⟩ := ih (by omega) hPq fun j hj hj' => hall j hj (by omega)
        exact ⟨i, h₁, by omega, h₃⟩

/-- **Every cluster with two of the leaves is that of a gap**, as far as the leaves of the
order go. -/
theorem exists_gap (hC : Hierarchy S C) (ho : IsLeafOrder C o m) (hlev : IsLevels C o m lev a) (hX : X ∈ C) {p q : ℕ}
    (hp : p < m) (hq : q < m) (hpq : p ≠ q) (hpX : o p ∈ X) (hqX : o q ∈ X) :
    ∃ i Y, i + 1 < m ∧ IsJoin C (o i) (o (i + 1)) Y ∧ ∀ r < m, o r ∈ X ↔ o r ∈ Y := by
  let B := ((Finset.range m).image o).filter (· ∈ X)
  have hB : ∀ {r}, r < m → o r ∈ X → o r ∈ B := fun {r} hr hrX =>
    Finset.mem_filter.2 ⟨Finset.mem_image_of_mem o (Finset.mem_range.2 hr), hrX⟩
  obtain ⟨Y, hY, hBY, hmin⟩ := Hierarchy.exists_least C ⟨X, hX, fun x hx => (Finset.mem_filter.1 hx).2⟩
  have hYX : Y ⊆ X := by
    rcases hC.nested_of_mem hY hX (hBY (hB hp hpX)) hpX with hsub | hsub
    · exact hsub
    · exact (Finset.eq_of_subset_of_card_le hsub (hmin X hX fun x hx => (Finset.mem_filter.1 hx).2)).ge
  obtain ⟨Y₁, h₁, Y₂, h₂, hd, rfl, ⟨x, hxB, hx⟩, y, hyB, hy⟩ := hC.exists_split_of_least hY hBY hmin
    (Finset.one_lt_card.2 ⟨o p, hB hp hpX, o q, hB hq hqX, fun he => hpq (ho.inj p hp q hq he)⟩)
  obtain ⟨r, hr, rfl⟩ := Finset.mem_image.1 (Finset.mem_filter.1 hxB).1
  obtain ⟨s, hs, rfl⟩ := Finset.mem_image.1 (Finset.mem_filter.1 hyB).1
  rw [Finset.mem_range] at hr hs
  -- the gap where the order passes from one part to the other
  have gap : ∀ {Y₁ Y₂ : Finset α} {r s : ℕ}, Y₁ ∈ C → Y₂ ∈ C → Disjoint Y₁ Y₂ → Y₁ ∪ Y₂ ∈ C → r < s → s < m → o r ∈ Y₁ →
      o s ∈ Y₂ → ∃ i, i + 1 < m ∧ IsJoin C (o i) (o (i + 1)) (Y₁ ∪ Y₂) := by
    intro Y₁ Y₂ r s h₁ h₂ hd hY hrs hs hr hsY
    obtain ⟨i, hri, his, hi, hi'⟩ := exists_change (P := fun j => o j ∈ Y₁) (Q := fun j => o j ∈ Y₂) hrs hr
      (Finset.disjoint_right.1 hd hsY) fun j hrj hjs => by
        refine Finset.mem_union.1 ?_
        rcases Nat.lt_or_ge r j with hlt | hge
        · rcases Nat.lt_or_ge j s with hlt' | hge'
          · exact ho.convex _ hY r j s hlt hlt' hs (Finset.mem_union_left _ hr) (Finset.mem_union_right _ hsY)
          · exact Finset.mem_union_right _ (le_antisymm hjs hge' ▸ hsY)
        · exact Finset.mem_union_left _ (le_antisymm hrj hge ▸ hr)
    obtain ⟨Z, hZ, -⟩ := hlev.gap i (by omega)
    exact ⟨i, by omega, hZ.eq_union hC h₁ h₂ hd hY hi hi' ▸ hZ⟩
  have hiff : ∀ r < m, o r ∈ X ↔ o r ∈ Y₁ ∪ Y₂ := fun r hr => ⟨fun hrX => hBY (hB hr hrX), fun hrY => hYX hrY⟩
  have hrs : r ≠ s := fun he => Finset.disjoint_left.1 hd hx (he ▸ hy)
  rcases Nat.lt_or_ge r s with hlt | hge
  · obtain ⟨i, hi, hjoin⟩ := gap h₁ h₂ hd hY hlt hs hx hy
    exact ⟨i, _, hi, hjoin, hiff⟩
  · obtain ⟨i, hi, hjoin⟩ := gap h₂ h₁ hd.symm (Finset.union_comm Y₁ Y₂ ▸ hY) (by omega) hr hy hx
    exact ⟨i, _, hi, hjoin, fun r hr => by rw [hiff r hr, Finset.union_comm]⟩

/-- The ranges of all gaps: they are intervals of clusters, and every cluster with two of
the leaves has its own. -/
structure IsRanges (C : Finset (Finset α)) (o : ℕ → α) (m : ℕ) (R : List (ℕ × ℕ)) : Prop where
  interval : ∀ r ∈ R, r.1 < r.2 ∧ r.2 < m ∧ ∃ X ∈ C, ∀ p < m, o p ∈ X ↔ r.1 ≤ p ∧ p ≤ r.2
  complete : ∀ X ∈ C, ∀ p < m, ∀ q < m, p ≠ q → o p ∈ X → o q ∈ X →
    ∃ r ∈ R, ∀ k < m, o k ∈ X ↔ r.1 ≤ k ∧ k ≤ r.2

/-- Ranges around all gaps are the ranges of the hierarchy. -/
theorem isRanges_of_forall (hC : Hierarchy S C) (ho : IsLeafOrder C o m) (hlev : IsLevels C o m lev a)
    {R : List (ℕ × ℕ)} (hR : ∀ r ∈ R, ∃ i, IsRange a m i r.1 r.2)
    (hall : ∀ i, i + 1 < m → ∃ r ∈ R, IsRange a m i r.1 r.2) : IsRanges C o m R where
  interval := fun r hr => by
    obtain ⟨i, hi⟩ := hR r hr
    have := hi.lt
    have := hi.lt_length
    obtain ⟨X, hX, -⟩ := hlev.gap i (by omega)
    exact ⟨hi.le.trans_lt hi.lt, hi.lt_length, X, hX.mem, fun p hp => hi.mem_iff hC ho hlev hX hp⟩
  complete := fun X hX p hp q hq hpq hpX hqX => by
    obtain ⟨i, Y, hi, hY, hiff⟩ := exists_gap hC ho hlev hX hp hq hpq hpX hqX
    obtain ⟨r, hr, hrange⟩ := hall i hi
    exact ⟨r, hr, fun k hk => (hiff k hk).trans (hrange.mem_iff hC ho hlev hY hk)⟩

/-- The positions of the leaves of one order in another one. -/
structure IsRank (o o' : ℕ → α) (m : ℕ) (ranks : List ℕ) : Prop where
  length : ranks.length = m
  lt : ∀ k < m, ranks.getD k default < m
  eq : ∀ k < m, o (ranks.getD k default) = o' k
  inj : ∀ i < m, ∀ j < m, o' i = o' j → i = j

section Compare

variable {ranks : List ℕ} {R R' : List (ℕ × ℕ)}

omit [DecidableEq α] in
/-- Two places have different ranks. -/
theorem IsRank.inj_rank (h : IsRank o o' m ranks) {i j : ℕ} (hi : i < m) (hj : j < m)
    (heq : ranks.getD i default = ranks.getD j default) : i = j :=
  h.inj i hi j hj (by rw [← h.eq i hi, ← h.eq j hj, heq])

omit [DecidableEq α] in
/-- Positions that fill an interval of the same length fill all of it. -/
theorem IsRank.exists_rank (h : IsRank o o' m ranks) {x y lo hi : ℕ} (hxy : x ≤ y) (hy : y < m)
    (hin : ∀ k, x ≤ k → k ≤ y → lo ≤ ranks.getD k default ∧ ranks.getD k default ≤ hi) (hlen : hi - lo = y - x)
    {j : ℕ} (hj : lo ≤ j) (hj' : j ≤ hi) : ∃ k, x ≤ k ∧ k ≤ y ∧ ranks.getD k default = j := by
  have hsub : (Finset.Icc x y).image (fun k => ranks.getD k default) ⊆ Finset.Icc lo hi := by
    intro r hr
    obtain ⟨k, hk, rfl⟩ := Finset.mem_image.1 hr
    rw [Finset.mem_Icc] at hk ⊢
    exact hin k hk.1 hk.2
  have hcard : (Finset.Icc lo hi).card ≤ ((Finset.Icc x y).image fun k => ranks.getD k default).card := by
    rw [Finset.card_image_of_injOn fun i hi j hj heq => ?_, Nat.card_Icc, Nat.card_Icc]
    · omega
    · rw [Finset.mem_coe, Finset.mem_Icc] at hi hj
      exact h.inj_rank (by omega) (by omega) heq
  have hmem : j ∈ (Finset.Icc x y).image fun k => ranks.getD k default := by
    rw [Finset.eq_of_subset_of_card_le hsub hcard]
    exact Finset.mem_Icc.2 ⟨hj, hj'⟩
  obtain ⟨k, hk, hkj⟩ := Finset.mem_image.1 hmem
  rw [Finset.mem_Icc] at hk
  exact ⟨k, hk.1, hk.2, hkj⟩

open SparseTable (IsMin IsMax isMin_combine isMax_combine)

omit [DecidableEq α] in
/-- **Reading the ranges of one tree in the order of the other** tests whether every
cluster of the one with two of the leaves is, on the leaves, one of the other. -/
theorem forall_ranges_iff (hR : IsRanges C o m R) (hR' : IsRanges D o' m R') (hrank : IsRank o o' m ranks) :
    (∀ r ∈ R', ∀ lo hi, IsMin ranks r.1 r.2 lo → IsMax ranks r.1 r.2 hi →
      hi - lo + 1 = r.2 - r.1 + 1 ∧ (lo, hi) ∈ R) ↔
    ∀ X ∈ D, ∀ p < m, ∀ q < m, p ≠ q → o' p ∈ X → o' q ∈ X → ∃ Y ∈ C, ∀ k < m, o' k ∈ X ↔ o' k ∈ Y := by
  constructor
  · intro h X hX p hp q hq hpq hpX hqX
    obtain ⟨r, hr, hiff⟩ := hR'.complete X hX p hp q hq hpq hpX hqX
    obtain ⟨hlt, hm, -⟩ := hR'.interval r hr
    have hlen : r.2 < ranks.length := by rwa [hrank.length]
    have hmin := isMin_combine hlt.le hlen Nat.lt_two_pow_self
    have hmax := isMax_combine hlt.le hlen Nat.lt_two_pow_self
    obtain ⟨hlen, hmem⟩ := h r hr _ _ hmin hmax
    obtain ⟨-, -, Y, hY, hYiff⟩ := hR.interval _ hmem
    refine ⟨Y, hY, fun k hk => ?_⟩
    rw [hiff k hk, ← hrank.eq k hk, hYiff _ (hrank.lt k hk)]
    constructor
    · rintro ⟨h₁, h₂⟩
      exact ⟨hmin.le k h₁ h₂, hmax.le k h₁ h₂⟩
    · rintro ⟨h₁, h₂⟩
      obtain ⟨k', hk', hk'', heq⟩ := hrank.exists_rank hlt.le hm
        (fun k h₁ h₂ => ⟨hmin.le k h₁ h₂, hmax.le k h₁ h₂⟩) (by omega) h₁ h₂
      obtain rfl := hrank.inj_rank (by omega) hk heq
      exact ⟨hk', hk''⟩
  · intro h r hr lo hi hmin hmax
    obtain ⟨hlt, hm, X, hX, hiff⟩ := hR'.interval r hr
    obtain ⟨Y, hY, hXY⟩ := h X hX r.1 (by omega) r.2 hm (by omega) ((hiff _ (by omega)).2 ⟨le_rfl, hlt.le⟩)
      ((hiff _ hm).2 ⟨hlt.le, le_rfl⟩)
    have hin : ∀ k < m, ranks.getD k default < m ∧ (o (ranks.getD k default) ∈ Y ↔ r.1 ≤ k ∧ k ≤ r.2) :=
      fun k hk => ⟨hrank.lt k hk, by rw [hrank.eq k hk, ← hXY k hk, hiff k hk]⟩
    obtain ⟨r', hr', hYiff⟩ := hR.complete Y hY _ (hin r.1 (by omega)).1 _ (hin r.2 hm).1
      (fun he => hlt.ne (hrank.inj_rank (by omega) hm he)) ((hin r.1 (by omega)).2.2 ⟨le_rfl, hlt.le⟩)
      ((hin r.2 hm).2.2 ⟨hlt.le, le_rfl⟩)
    obtain ⟨hlt', hm', -⟩ := hR.interval r' hr'
    -- the positions of the range fill the interval of the other cluster
    have hsurj : ∀ j, r'.1 ≤ j → j ≤ r'.2 → ∃ k, r.1 ≤ k ∧ k ≤ r.2 ∧ ranks.getD k default = j := by
      intro j h₁ h₂
      have hbound : ∀ k, 0 ≤ k → k ≤ m - 1 → 0 ≤ ranks.getD k default ∧ ranks.getD k default ≤ m - 1 := fun k _ hk =>
        ⟨Nat.zero_le _, by have := hrank.lt k (by omega); omega⟩
      obtain ⟨k, -, hk, rfl⟩ := hrank.exists_rank (Nat.zero_le (m - 1)) (by omega) hbound rfl (Nat.zero_le j) (by omega)
      have := (hin k (by omega)).2.1 ((hYiff _ (by omega)).2 ⟨h₁, h₂⟩)
      exact ⟨k, this.1, this.2, rfl⟩
    have hmaps : ∀ k, r.1 ≤ k → k ≤ r.2 → r'.1 ≤ ranks.getD k default ∧ ranks.getD k default ≤ r'.2 := fun k h₁ h₂ =>
      (hYiff _ (hin k (by omega)).1).1 ((hin k (by omega)).2.2 ⟨h₁, h₂⟩)
    obtain ⟨k₁, h₁, h₁', he₁⟩ := hmin.attained
    obtain ⟨k₂, h₂, h₂', he₂⟩ := hmax.attained
    obtain ⟨k₃, h₃, h₃', he₃⟩ := hsurj r'.1 le_rfl hlt'.le
    obtain ⟨k₄, h₄, h₄', he₄⟩ := hsurj r'.2 hlt'.le le_rfl
    have hlo : lo = r'.1 := le_antisymm (he₃ ▸ hmin.le k₃ h₃ h₃') (he₁ ▸ (hmaps k₁ h₁ h₁').1)
    have hhi : hi = r'.2 := le_antisymm (he₂ ▸ (hmaps k₂ h₂ h₂').2) (he₄ ▸ hmax.le k₄ h₄ h₄')
    have himage : (Finset.Icc r.1 r.2).image (fun k => ranks.getD k default) = Finset.Icc r'.1 r'.2 := by
      ext j
      simp only [Finset.mem_image, Finset.mem_Icc]
      constructor
      · rintro ⟨k, ⟨h₁, h₂⟩, rfl⟩
        exact hmaps k h₁ h₂
      · rintro ⟨h₁, h₂⟩
        obtain ⟨k, h₁, h₂, h₃⟩ := hsurj j h₁ h₂
        exact ⟨k, ⟨h₁, h₂⟩, h₃⟩
    have hcard := congrArg Finset.card himage
    rw [Finset.card_image_of_injOn fun i hi j hj heq => ?_, Nat.card_Icc, Nat.card_Icc] at hcard
    · exact ⟨by omega, hlo ▸ hhi ▸ hr'⟩
    · rw [Finset.mem_coe, Finset.mem_Icc] at hi hj
      exact hrank.inj_rank (by omega) (by omega) heq

end Compare

/-- Two binary trees, the clusters of one among those of the other. -/
theorem Hierarchy.eq_of_subset (hC : Hierarchy S C) (hD : Hierarchy S D) (hS : S ∈ D) (hsub : D ⊆ C) : C = D := by
  refine Finset.Subset.antisymm (hC.subset_of_triple hD hS fun x hx y hy z hz h => ?_) hsub
  have hne : x ≠ z ∧ y ≠ z := by
    obtain ⟨X, -, hxX, hyX, hzX⟩ := h
    exact ⟨fun he => hzX (he ▸ hxX), fun he => hzX (he ▸ hyX)⟩
  have lift : ∀ {x y z : α}, Triple D x y z → Triple C x y z := fun ⟨X, hX, h⟩ => ⟨X, hsub hX, h⟩
  rcases eq_or_ne x y with rfl | hxy
  · exact ⟨{x}, hD.singleton x hx, Finset.mem_singleton_self x, Finset.mem_singleton_self x,
      fun hzx => hne.1 (Finset.mem_singleton.1 hzx).symm⟩
  · rcases hD.triple_of_mem hS hx hy hz hxy hne.1 hne.2 with h' | h' | h'
    · exact h'
    · exact absurd (lift h') (hC.not_triple_of_triple h).1
    · exact absurd (lift h') (hC.not_triple_of_triple h).2

/-- **Two trees induce the same topology** when every cluster of one with two of the
leaves is, on the leaves, a cluster of the other. -/
theorem trace_eq_iff (hC : Hierarchy S C) (hD : Hierarchy S D) (hSD : S ∈ D) {B : Finset α} (hB : B ⊆ S)
    (hBne : B.Nonempty) : trace C B = trace D B ↔
      ∀ X ∈ D, ∀ x ∈ B, ∀ y ∈ B, x ≠ y → x ∈ X → y ∈ X → ∃ Y ∈ C, ∀ z ∈ B, z ∈ X ↔ z ∈ Y := by
  have hiff : ∀ {X Y : Finset α}, X ∩ B = Y ∩ B ↔ ∀ z ∈ B, z ∈ X ↔ z ∈ Y := fun {X Y} => by
    rw [Finset.ext_iff]
    refine forall_congr' fun z => ?_
    rw [Finset.mem_inter, Finset.mem_inter]
    tauto
  constructor
  · intro h X hX x hx y _ _ hxX _
    have hmem : X ∩ B ∈ trace C B := h ▸ mem_trace.2 ⟨⟨x, Finset.mem_inter.2 ⟨hxX, hx⟩⟩, X, hX, rfl⟩
    obtain ⟨-, Y, hY, hYB⟩ := mem_trace.1 hmem
    exact ⟨Y, hY, hiff.1 hYB.symm⟩
  · intro h
    refine (hC.trace hB).eq_of_subset (hD.trace hB)
      (mem_trace.2 ⟨hBne, S, hSD, Finset.inter_eq_right.2 hB⟩) fun Z hZ => ?_
    obtain ⟨⟨x, hx⟩, X, hX, rfl⟩ := mem_trace.1 hZ
    obtain ⟨hxX, hxB⟩ := Finset.mem_inter.1 hx
    by_cases hone : ∀ y ∈ X ∩ B, y = x
    · rw [Finset.eq_singleton_iff_unique_mem.2 ⟨hx, hone⟩]
      exact (hC.trace hB).singleton x hxB
    · push Not at hone
      obtain ⟨y, hy, hne⟩ := hone
      obtain ⟨Y, hY, hXY⟩ := h X hX x hxB y (Finset.mem_inter.1 hy).2 hne.symm hxX (Finset.mem_inter.1 hy).1
      exact mem_trace.2 ⟨⟨x, hx⟩, Y, hY, (hiff.2 hXY).symm⟩

end Maf
