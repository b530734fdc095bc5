/-
# Common chains in terms of clusters

The labels of a chain hang one after another above a set `A` of labels: for every rank
the labels of lower rank form a cluster with `A` (`Chained`).  `A` may be another set in every
forest, the chain is the same.

A chain with more labels than there are forests can be made longer without another block
(`lengthens_of_chain`).  A block passes a chain when it has labels in `A` and
others above the chain (`Passes`); in each forest at most one does.

* When a block with labels of the chain can take more of them, the missing ones join it
  (`IsAgreement.gather`): the whole chain (`lengthens_of_join`) or its upper end (`lengthens_of_shared`).
* Otherwise labels of the chain are blocks of their own.  The whole chain is made one block, and the
  blocks that pass it are cut, once for each forest (`IsAgreement.isolate`); the
  chain saves no less than this adds (`lengthens_of_card`).
-/

import Maf.Surgery

namespace Maf

variable {α β : Type*} [DecidableEq α]

/-- The labels of rank below `k` of a chain, with those that the chain hangs above. -/
def upTo (A chain : Finset α) (rank : α → ℕ) (k : ℕ) : Finset α := A ∪ chain.filter (rank · < k)

/-- **A chain**: its labels hang one after another above the labels `A`. -/
structure Chained (C : Finset (Finset α)) (A chain : Finset α) (rank : α → ℕ) : Prop where
  injective : Set.InjOn rank chain
  disjoint : Disjoint A chain
  mem : ∀ k, upTo A chain rank k ∈ C

/-- What lies below a step of the chain. -/
theorem mem_upTo {A chain : Finset α} {rank : α → ℕ} {k : ℕ} {x : α} :
    x ∈ upTo A chain rank k ↔ x ∈ A ∨ x ∈ chain ∧ rank x < k := by
  rw [upTo, Finset.mem_union, Finset.mem_filter]

section Chain

variable {S A chain X : Finset α} {C : Finset (Finset α)} {rank : α → ℕ} {x y z c c' : α} {k : ℕ}

/-- Below the first step is the base. -/
theorem upTo_zero : upTo A chain rank 0 = A := by
  ext x
  simp [mem_upTo]

/-- Above the last step is everything. -/
theorem exists_upTo_eq (A chain : Finset α) (rank : α → ℕ) : ∃ n, upTo A chain rank n = A ∪ chain := by
  refine ⟨chain.sup rank + 1, ?_⟩
  ext x
  rw [mem_upTo, Finset.mem_union, and_iff_left_of_imp]
  exact fun hx => Nat.lt_succ_of_le (Finset.le_sup hx)

/-- A step contains nothing but the base and the chain. -/
theorem upTo_subset : upTo A chain rank k ⊆ A ∪ chain :=
  Finset.union_subset_union_right (Finset.filter_subset _ _)

/-- The base is a cluster. -/
theorem Chained.mem_base (h : Chained C A chain rank) : A ∈ C := by
  have := h.mem 0
  rwa [upTo_zero] at this

/-- The base with the chain is a cluster. -/
theorem Chained.mem_top (h : Chained C A chain rank) : A ∪ chain ∈ C := by
  obtain ⟨n, hn⟩ := exists_upTo_eq A chain rank
  exact hn ▸ h.mem n

/-- The chain has no element in the base. -/
theorem Chained.notMem (h : Chained C A chain rank) (hc : c ∈ chain) : c ∉ A := Finset.disjoint_right.1 h.disjoint hc

/-- An element of the chain is below a step by its rank. -/
theorem Chained.mem_upTo_iff (h : Chained C A chain rank) (hc : c ∈ chain) : c ∈ upTo A chain rank k ↔ rank c < k := by
  rw [mem_upTo, or_iff_right (h.notMem hc), and_iff_right hc]

/-- **The clusters around a chain.** -/
theorem Chained.cases (hC : Hierarchy S C) (h : Chained C A chain rank) (hX : X ∈ C) :
    X ⊆ A ∨ (∃ c ∈ chain, X = {c}) ∨ (∃ k, X = upTo A chain rank k) ∨ A ∪ chain ⊆ X ∨ Disjoint X (A ∪ chain) := by
  rcases hC.nested X hX _ h.mem_top with hsub | hsup | hd
  · have hex : ∃ k, X ⊆ upTo A chain rank k := (exists_upTo_eq A chain rank).imp fun n hn => by rwa [hn]
    classical
    -- the first rank that holds all of `X`
    have hle := Nat.find_spec hex
    have hmin := fun k hk => Nat.find_min hex (m := k) hk
    generalize Nat.find hex = k at hle hmin
    cases k with
    | zero => exact Or.inl (upTo_zero (A := A) ▸ hle)
    | succ k =>
        have hnot := hmin k (Nat.lt_succ_self k)
        have hstep : ∀ x ∈ X, x ∉ upTo A chain rank k → x ∈ chain ∧ rank x = k := by
          intro x hx hk
          rcases mem_upTo.1 (hle hx) with hA | ⟨hc, hlt⟩
          · exact absurd (mem_upTo.2 (Or.inl hA)) hk
          · have hnlt : ¬rank x < k := fun hlt => hk (mem_upTo.2 (Or.inr ⟨hc, hlt⟩))
            exact ⟨hc, by omega⟩
        obtain ⟨c, hcX, hck⟩ := Finset.not_subset.1 hnot
        obtain ⟨hc, hrank⟩ := hstep c hcX hck
        rcases hC.nested X hX _ (h.mem k) with hs | hs | hd
        · exact absurd hs hnot
        · refine Or.inr (Or.inr (Or.inl ⟨k + 1, hle.antisymm fun x hx => ?_⟩))
          rcases mem_upTo.1 hx with hA | ⟨hxc, hlt⟩
          · exact hs (mem_upTo.2 (Or.inl hA))
          · rcases Nat.lt_succ_iff_lt_or_eq.1 hlt with hlt | heq
            · exact hs (mem_upTo.2 (Or.inr ⟨hxc, hlt⟩))
            · rwa [h.injective hxc hc (heq.trans hrank.symm)]
        · refine Or.inr (Or.inl ⟨c, hc, Finset.eq_singleton_iff_unique_mem.2 ⟨hcX, fun x hx => ?_⟩⟩)
          obtain ⟨hxc, hxk⟩ := hstep x hx (Finset.disjoint_left.1 hd hx)
          exact h.injective hxc hc (hxk.trans hrank.symm)
  · exact Or.inr (Or.inr (Or.inr (Or.inl hsup)))
  · exact Or.inr (Or.inr (Or.inr (Or.inr hd)))

/-- A cluster with a label of the chain and one above it holds the chain. -/
theorem Chained.top_subset (hC : Hierarchy S C) (h : Chained C A chain rank) (hX : X ∈ C) (hc : c ∈ A ∪ chain)
    (hcX : c ∈ X) (hy : y ∉ A ∪ chain) (hyX : y ∈ X) : A ∪ chain ⊆ X :=
  hC.subset_of_mem h.mem_top hX hc hcX hyX hy

/-- A cluster with a label of the chain and a lower one holds all that hang below. -/
theorem Chained.upTo_subset (hC : Hierarchy S C) (h : Chained C A chain rank) (hX : X ∈ C) (hc : c ∈ chain)
    (hcX : c ∈ X) (hy : y ∈ upTo A chain rank (rank c)) (hyX : y ∈ X) : upTo A chain rank (rank c + 1) ⊆ X := by
  have hlow : upTo A chain rank (rank c) ⊆ X := hC.subset_of_mem (h.mem _) hX hy hyX hcX
    (mt (h.mem_upTo_iff hc).1 (lt_irrefl _))
  intro x hx
  rcases mem_upTo.1 hx with hA | ⟨hxc, hlt⟩
  · exact hlow (mem_upTo.2 (Or.inl hA))
  · rcases Nat.lt_succ_iff_lt_or_eq.1 hlt with hlt | heq
    · exact hlow (mem_upTo.2 (Or.inr ⟨hxc, hlt⟩))
    · rwa [h.injective hxc hc heq]

end Chain

section Gather

variable {S T A A' chain Q R : Finset α} {C D : Finset (Finset α)} {rank : α → ℕ} {x y z c₀ : α}

/-- **The triples of a block that holds labels of a chain** are fixed by the ranks and by the triples of the
other labels: in two forests they are the same when the same labels of the block are below the chain. -/
theorem triple_of_chained (hC : Hierarchy S C) (hD : Hierarchy S D) (h : Chained C A chain rank)
    (h' : Chained D A' chain rank) (hQ : Q ⊆ chain) (hR : Disjoint R chain) (hRS : R ⊆ S) (hc₀ : c₀ ∈ Q)
    (hsame : ∀ x ∈ R, x ∈ A ↔ x ∈ A')
    (htri : ∀ x ∈ insert c₀ R, ∀ y ∈ insert c₀ R, ∀ z ∈ insert c₀ R, Triple C x y z → Triple D x y z)
    (hx : x ∈ Q ∪ R) (hy : y ∈ Q ∪ R) (hz : z ∈ Q ∪ R) (ht : Triple C x y z) : Triple D x y z := by
  have htop : A ∪ chain ⊆ S := hC.subset _ h.mem_top
  have hchainS : chain ⊆ S := Finset.subset_union_right.trans htop
  have hQS : Q ∪ R ⊆ S := Finset.union_subset (hQ.trans hchainS) hRS
  -- a label is below a rank in both forests or in none
  have hupTo : ∀ k, ∀ w ∈ Q ∪ R, w ∉ upTo A chain rank k → w ∉ upTo A' chain rank k := by
    intro k w hw hwk hwk'
    rcases Finset.mem_union.1 hw with hwQ | hwR
    · exact hwk ((h.mem_upTo_iff (hQ hwQ)).2 ((h'.mem_upTo_iff (hQ hwQ)).1 hwk'))
    · rcases mem_upTo.1 hwk' with hwA | ⟨hwc, -⟩
      · exact hwk (mem_upTo.2 (Or.inl ((hsame w hwR).2 hwA)))
      · exact Finset.disjoint_left.1 hR hwR hwc
  have hout : ∀ w ∈ R, w ∉ A' → w ∉ A' ∪ chain := fun w hw hwA hmem =>
    (Finset.mem_union.1 hmem).elim hwA (Finset.disjoint_left.1 hR hw)
  have hout' : ∀ w ∈ R, w ∉ A → w ∉ A ∪ chain := fun w hw hwA hmem =>
    (Finset.mem_union.1 hmem).elim hwA (Finset.disjoint_left.1 hR hw)
  have hR₀ : ∀ w ∈ R, w ∈ insert c₀ R := fun w hw => Finset.mem_insert_of_mem hw
  have hself : c₀ ∈ insert c₀ R := Finset.mem_insert_self ..
  have htop : ∀ c ∈ Q, c ∈ A ∪ chain := fun c hc => Finset.mem_union_right _ (hQ hc)
  have htop' : ∀ c ∈ Q, c ∈ A' ∪ chain := fun c hc => Finset.mem_union_right _ (hQ hc)
  -- a label of the chain with one that hangs below it
  have hlow : ∀ c ∈ Q, ∀ w ∈ Q ∪ R, w ∈ upTo A chain rank (rank c) → Triple C c w z → Triple D c w z := by
    rintro c hc w hw hwc ⟨X, hX, hcX, hwX, hzX⟩
    have hsub := h.upTo_subset hC hX (hQ hc) hcX hwc hwX
    refine ⟨_, h'.mem (rank c + 1), (h'.mem_upTo_iff (hQ hc)).2 (Nat.lt_succ_self _), ?_,
      hupTo _ z hz fun hmem => hzX (hsub hmem)⟩
    rcases Finset.mem_union.1 hw with hwQ | hwR
    · exact (h'.mem_upTo_iff (hQ hwQ)).2 (((h.mem_upTo_iff (hQ hwQ)).1 hwc).trans (Nat.lt_succ_self _))
    · rcases mem_upTo.1 hwc with hwA | ⟨hwch, -⟩
      · exact mem_upTo.2 (Or.inl ((hsame w hwR).1 hwA))
      · exact absurd hwch (Finset.disjoint_left.1 hR hwR)
  -- a label of the chain with one above the chain
  have hhigh : ∀ c ∈ Q, ∀ w ∈ R, w ∉ A → Triple C c w z → Triple D c w z := by
    rintro c hc w hw hwA ⟨X, hX, hcX, hwX, hzX⟩
    have hsub := h.top_subset hC hX (htop c hc) hcX (hout' w hw hwA) hwX
    have hzR : z ∈ R := (Finset.mem_union.1 hz).resolve_left fun hzQ => hzX (hsub (htop z hzQ))
    obtain ⟨Y, hY, hc₀Y, hwY, hzY⟩ := htri c₀ hself w (hR₀ w hw) z (hR₀ z hzR) ⟨X, hX, hsub (htop c₀ hc₀), hwX, hzX⟩
    have hsub' := h'.top_subset hD hY (htop' c₀ hc₀) hc₀Y (hout w hw fun hwA' => hwA ((hsame w hw).2 hwA')) hwY
    exact ⟨Y, hY, hsub' (htop' c hc), hwY, hzY⟩
  have hswap : ∀ {E : Finset (Finset α)} {u v w : α}, Triple E u v w → Triple E v u w :=
    fun ⟨X, hX, hu, hv, hw⟩ => ⟨X, hX, hv, hu, hw⟩
  by_cases hxy : x = y
  · obtain ⟨X, -, hxX, -, hzX⟩ := ht
    subst hxy
    refine ⟨{x}, hD.singleton x (hQS hx), by simp, by simp, fun hmem => hzX ?_⟩
    rwa [Finset.mem_singleton.1 hmem]
  rcases Finset.mem_union.1 hx with hxQ | hxR <;> rcases Finset.mem_union.1 hy with hyQ | hyR
  · rcases lt_trichotomy (rank x) (rank y) with hlt | heq | hlt
    · exact hswap (hlow y hyQ x hx ((h.mem_upTo_iff (hQ hxQ)).2 hlt) (hswap ht))
    · exact absurd (h.injective (hQ hxQ) (hQ hyQ) heq) hxy
    · exact hlow x hxQ y hy ((h.mem_upTo_iff (hQ hyQ)).2 hlt) ht
  · by_cases hyA : y ∈ A
    · exact hlow x hxQ y hy (mem_upTo.2 (Or.inl hyA)) ht
    · exact hhigh x hxQ y hyR hyA ht
  · by_cases hxA : x ∈ A
    · exact hswap (hlow y hyQ x hx (mem_upTo.2 (Or.inl hxA)) (hswap ht))
    · exact hswap (hhigh y hyQ x hxR hxA (hswap ht))
  · rcases Finset.mem_union.1 hz with hzQ | hzR
    · obtain ⟨X, hX, hxX, hyX, hzX⟩ := ht
      by_cases hxA : x ∈ A <;> by_cases hyA : y ∈ A
      · exact ⟨A', h'.mem_base, (hsame x hxR).1 hxA, (hsame y hyR).1 hyA, h'.notMem (hQ hzQ)⟩
      · exact absurd (h.top_subset hC hX (Finset.mem_union_left _ hxA) hxX (hout' y hyR hyA) hyX (htop z hzQ)) hzX
      · exact absurd (h.top_subset hC hX (Finset.mem_union_left _ hyA) hyX (hout' x hxR hxA) hxX (htop z hzQ)) hzX
      · -- both are above the chain: the cluster has none of its labels
        have hc₀X : c₀ ∉ X := fun hmem => hzX (h.top_subset hC hX (htop c₀ hc₀) hmem (hout' x hxR hxA) hxX (htop z hzQ))
        obtain ⟨Y, hY, hxY, hyY, hc₀Y⟩ := htri x (hR₀ x hxR) y (hR₀ y hyR) c₀ hself ⟨X, hX, hxX, hyX, hc₀X⟩
        refine ⟨Y, hY, hxY, hyY, fun hzY => hc₀Y ?_⟩
        exact h'.top_subset hD hY (htop' z hzQ) hzY (hout x hxR fun hA => hxA ((hsame x hxR).2 hA)) hxY (htop' c₀ hc₀)
    · exact htri x (hR₀ x hxR) y (hR₀ y hyR) z (hR₀ z hzR) ht

/-- The labels `Q` in the block `u`. -/
def gather (f : α → β) (Q : Finset α) (u : β) (x : α) : β := if x ∈ Q then u else f x

/-- A gathered label goes to the new block. -/
theorem gather_of_mem {f : α → β} {u : β} (h : x ∈ Q) : gather f Q u x = u := if_pos h

/-- Another label stays where it is. -/
theorem gather_of_notMem {f : α → β} {u : β} (h : x ∉ Q) : gather f Q u x = f x := if_neg h

/-- **A chain that several forests have**, above labels of their own. -/
structure CommonChain (S : Finset α) (𝒞 : List (Finset (Finset α))) (A : Finset (Finset α) → Finset α)
    (chain : Finset α) (rank : α → ℕ) : Prop where
  hierarchy : ∀ C ∈ 𝒞, Hierarchy S C
  chained : ∀ C ∈ 𝒞, Chained C (A C) chain rank

variable {𝒞 : List (Finset (Finset α))} {A₀ : Finset (Finset α) → Finset α} {f : α → β} {u : β}

/-- **Labels of a chain join a block** that has one of them: the block lies below the chain
with the same labels everywhere, and no other block is on the chain where it is then. -/
theorem IsAgreement.gather (h : CommonChain S 𝒞 A₀ chain rank) (hf : IsAgreement T 𝒞 f) (hTS : T ⊆ S)
    (hQ : Q ⊆ chain) (hST : S ⊆ T ∪ Q) (hc₀ : c₀ ∈ Q) (hc₀T : c₀ ∈ T) (hu : f c₀ = u)
    (hblock : ∀ c ∈ chain, c ∈ T → f c = u → c ∈ Q)
    (hsame : ∀ C ∈ 𝒞, ∀ D ∈ 𝒞, ∀ x ∈ T, x ∉ chain → f x = u → x ∈ A₀ C → x ∈ A₀ D)
    (hfree : ∀ C ∈ 𝒞, ∀ k b, b ≠ u → Used T f (upTo (A₀ C) chain rank k) b →
      ¬Used S (Maf.gather f Q u) (upTo (A₀ C) chain rank k) u) :
    IsAgreement S 𝒞 (Maf.gather f Q u) := by
  have hold : ∀ x ∈ S, x ∉ Q → x ∈ T := fun x hx hxQ => (Finset.mem_union.1 (hST hx)).resolve_right hxQ
  -- a label of the block is one of the gathered ones, or off the chain
  have hcases : ∀ x ∈ S, Maf.gather f Q u x = u → x ∈ Q ∨ x ∈ T ∧ x ∉ chain ∧ f x = u := by
    intro x hx hxu
    by_cases hxQ : x ∈ Q
    · exact Or.inl hxQ
    · rw [gather_of_notMem hxQ] at hxu
      exact Or.inr ⟨hold x hx hxQ, fun hxc => hxQ (hblock x hxc (hold x hx hxQ) hxu), hxu⟩
  have hother : ∀ x, Maf.gather f Q u x ≠ u → x ∉ Q ∧ Maf.gather f Q u x = f x := by
    intro x hx
    have hxQ : x ∉ Q := fun hmem => hx (gather_of_mem hmem)
    exact ⟨hxQ, gather_of_notMem hxQ⟩
  have hused : ∀ {X b}, b ≠ u → Used S (Maf.gather f Q u) X b → Used T f X b := by
    rintro X b hb ⟨x, hx, y, hy, hxb, hyb, hxX, hyX⟩
    obtain ⟨hxQ, hxf⟩ := hother x (hxb ▸ hb)
    obtain ⟨hyQ, hyf⟩ := hother y (hyb ▸ hb)
    exact ⟨x, hold x hx hxQ, y, hold y hy hyQ, hxf ▸ hxb, hyf ▸ hyb, hxX, hyX⟩
  refine ⟨fun C hC => ⟨fun x hx y hy hxy => ?_, fun X hX b b' hb hb' => ?_⟩,
    fun C hC D hD x hx y hy z hz hxy hyz ht => ?_⟩
  · have hCh := h.hierarchy C hC
    have hch := h.chained C hC
    have he := hf.embeds C hC
    -- a gathered label with one off the chain
    have hmixed : ∀ x ∈ Q, ∀ y ∈ S, Maf.gather f Q u y = u → ∃ X ∈ C, x ∈ X ∧ y ∈ X := by
      intro x hxQ y hy hyu
      have hxtop : x ∈ A₀ C ∪ chain := Finset.mem_union_right _ (hQ hxQ)
      rcases hcases y hy hyu with hyQ | ⟨hyT, hyc, hyf⟩
      · exact ⟨_, hch.mem_top, hxtop, Finset.mem_union_right _ (hQ hyQ)⟩
      · by_cases hyA : y ∈ A₀ C
        · exact ⟨_, hch.mem_top, hxtop, Finset.mem_union_left _ hyA⟩
        · obtain ⟨X, hX, hcX, hyX⟩ := he.joined c₀ hc₀T y hyT (hu.trans hyf.symm)
          have hyout : y ∉ A₀ C ∪ chain := fun hmem => (Finset.mem_union.1 hmem).elim hyA hyc
          exact ⟨X, hX, hch.top_subset hCh hX (Finset.mem_union_right _ (hQ hc₀)) hcX hyout hyX hxtop, hyX⟩
    by_cases hxQ : x ∈ Q
    · exact hmixed x hxQ y hy (hxy.symm.trans (gather_of_mem hxQ))
    · by_cases hyQ : y ∈ Q
      · obtain ⟨X, hX, hyX, hxX⟩ := hmixed y hyQ x hx (hxy.trans (gather_of_mem hyQ))
        exact ⟨X, hX, hxX, hyX⟩
      · rw [gather_of_notMem hxQ, gather_of_notMem hyQ] at hxy
        exact he.joined x (hold x hx hxQ) y (hold y hy hyQ) hxy
  · have hCh := h.hierarchy C hC
    have hch := h.chained C hC
    have he := hf.embeds C hC
    have hQA : ∀ x ∈ Q, x ∈ A₀ C ∪ chain := fun x hx => Finset.mem_union_right _ (hQ hx)
    have apart : ∀ d, d ≠ u → Used S (Maf.gather f Q u) X d → Used S (Maf.gather f Q u) X u → False := by
      intro d hd' hUb hUu
      have hUb' := hused hd' hUb
      rcases hch.cases hCh hX with hXA | ⟨c, hc, rfl⟩ | ⟨k, rfl⟩ | htop | hd
      · -- inside of `A` the block has its old labels, and `c₀` is outside
        obtain ⟨x, hx, -, -, hxu, -, hxX, -⟩ := hUu
        have hnot : ∀ c ∈ chain, c ∉ X := fun c hc hcX => hch.notMem hc (hXA hcX)
        rcases hcases x hx hxu with hxQ | ⟨hxT, -, hxf⟩
        · exact hnot x (hQ hxQ) hxX
        · exact hd' (he.disjoint X hX d u hUb' ⟨x, hxT, c₀, hc₀T, hxf, hu, hxX, hnot c₀ (hQ hc₀)⟩)
      · obtain ⟨x, hx, -, -, hxb, -, hxX, -⟩ := hUb
        obtain ⟨y, hy, -, -, hyu, -, hyX, -⟩ := hUu
        rw [Finset.mem_singleton] at hxX hyX
        exact hd' (hxb.symm.trans (by rw [hxX, ← hyX]; exact hyu))
      · exact hfree C hC k d hd' hUb' hUu
      · obtain ⟨-, -, y, hy, -, hyu, -, hyX⟩ := hUu
        rcases hcases y hy hyu with hyQ | ⟨hyT, -, hyf⟩
        · exact hyX (htop (hQA y hyQ))
        · exact hd' (he.disjoint X hX d u hUb' ⟨c₀, hc₀T, y, hyT, hu, hyf, htop (hQA c₀ hc₀), hyX⟩)
      · obtain ⟨x, hx, -, -, hxu, -, hxX, -⟩ := hUu
        rcases hcases x hx hxu with hxQ | ⟨hxT, -, hxf⟩
        · exact Finset.disjoint_left.1 hd hxX (hQA x hxQ)
        · exact hd' (he.disjoint X hX d u hUb' ⟨x, hxT, c₀, hc₀T, hxf, hu, hxX, fun hc =>
            Finset.disjoint_left.1 hd hc (hQA c₀ hc₀)⟩)
    by_cases hbu : b = u
    · subst hbu
      by_contra hne
      exact apart b' (Ne.symm hne) hb' hb
    · by_cases hbu' : b' = u
      · subst hbu'
        exact absurd hb' (apart b hbu hb)
      · exact he.disjoint X hX b b' (hused hbu hb) (hused hbu' hb')
  · classical
    by_cases hxu : Maf.gather f Q u x = u
    · set R := T.filter fun x => x ∉ chain ∧ f x = u with hR
      have hmem : ∀ {x}, x ∈ S → Maf.gather f Q u x = u → x ∈ Q ∪ R := fun {x} hx hxu => by
        rw [Finset.mem_union, hR, Finset.mem_filter]
        exact hcases x hx hxu
      have hrep : ∀ {x}, x ∈ insert c₀ R → x ∈ T ∧ f x = u := fun {x} hx => by
        rcases Finset.mem_insert.1 hx with rfl | hx
        · exact ⟨hc₀T, hu⟩
        · exact ⟨(Finset.mem_filter.1 hx).1, (Finset.mem_filter.1 hx).2.2⟩
      have hyu := hxy.symm.trans hxu
      refine triple_of_chained (h.hierarchy C hC) (h.hierarchy D hD) (h.chained C hC)
        (h.chained D hD) hQ (R := R) ?_ ?_ hc₀ ?_ ?_
        (hmem hx hxu) (hmem hy hyu) (hmem hz (hyz.symm.trans hyu)) ht
      · exact Finset.disjoint_left.2 fun x hx => (Finset.mem_filter.1 hx).2.1
      · exact (Finset.filter_subset _ _).trans hTS
      · intro x hx
        obtain ⟨hxT, hxc, hxf⟩ := Finset.mem_filter.1 hx
        exact ⟨hsame C hC D hD x hxT hxc hxf, hsame D hD C hC x hxT hxc hxf⟩
      · intro x hx y hy z hz
        have hfx := hrep hx
        have hfy := hrep hy
        have hfz := hrep hz
        exact hf.agree C hC D hD x hfx.1 y hfy.1 z hfz.1 (hfx.2.trans hfy.2.symm) (hfy.2.trans hfz.2.symm)
    · obtain ⟨hxQ, hxf⟩ := hother x hxu
      obtain ⟨hyQ, hyf⟩ := hother y (hxy ▸ hxu)
      obtain ⟨hzQ, hzf⟩ := hother z (hyz ▸ hxy ▸ hxu)
      rw [hxf, hyf] at hxy
      rw [hyf, hzf] at hyz
      exact hf.agree C hC D hD x (hold x hx hxQ) y (hold y hy hyQ) z (hold z hz hzQ) hxy hyz ht

end Gather

/-- The block `b` passes the chain: it has labels below and above it. -/
def Passes (T A chain : Finset α) (f : α → β) (b : β) : Prop :=
  ∃ x ∈ A, ∃ y ∈ T, y ∉ A ∪ chain ∧ f x = b ∧ f y = b

section Isolate

variable {S T chain : Finset α} {C D : Finset (Finset α)} {rank : α → ℕ} {𝒞 : List (Finset (Finset α))}
  {A : Finset (Finset α) → Finset α} {f : α → β} {b b' : β}

/-- The labels below the chain are off the chain. -/
theorem CommonChain.base_subset (h : CommonChain S 𝒞 A chain rank) (hST : S \ chain ⊆ T) (hC : C ∈ 𝒞) : A C ⊆ T :=
  fun _ hx => hST (Finset.mem_sdiff.2 ⟨(h.hierarchy C hC).subset _ (h.chained C hC).mem_base hx,
    fun hc => (h.chained C hC).notMem hc hx⟩)

/-- A block that passes a chain uses its edges. -/
theorem Passes.used (h : Passes T (A C) chain f b) (hA : A C ⊆ T) (k : ℕ) : Used T f (upTo (A C) chain rank k) b := by
  obtain ⟨x, hx, y, hy, hyout, hxb, hyb⟩ := h
  exact ⟨x, hA hx, y, hy, hxb, hyb, mem_upTo.2 (Or.inl hx), fun hmem => hyout (Maf.upTo_subset hmem)⟩

/-- **At most one block passes a chain.** -/
theorem Passes.unique (hf : Embeds T C f) (hch : Chained C (A C) chain rank) (hA : A C ⊆ T)
    (h : Passes T (A C) chain f b) (h' : Passes T (A C) chain f b') : b = b' :=
  hf.disjoint _ (hch.mem 0) b b' (h.used hA 0) (h'.used hA 0)

/-- **Where a block passes a chain**, the labels of the chain in other blocks are alone. -/
theorem Passes.alone (hf : Embeds T C f) (hch : Chained C (A C) chain rank) (hA : A C ⊆ T)
    (h : Passes T (A C) chain f b) {c x : α} (hc : c ∈ chain) (hcT : c ∈ T) (hcb : f c ≠ b) (hx : x ∈ T)
    (hxc : f x = f c) : x = c := by
  by_contra hne
  have hself : c ∈ upTo (A C) chain rank (rank c + 1) := (hch.mem_upTo_iff hc).2 (Nat.lt_succ_self _)
  by_cases hlow : x ∈ upTo (A C) chain rank (rank c)
  · refine hcb (hf.disjoint _ (hch.mem _) _ _ ⟨x, hx, c, hcT, hxc, rfl, hlow, ?_⟩ (h.used hA _))
    exact fun hmem => lt_irrefl _ ((hch.mem_upTo_iff hc).1 hmem)
  · refine hcb (hf.disjoint _ (hch.mem _) _ _ ⟨c, hcT, x, hx, rfl, hxc, hself, fun hmem => ?_⟩ (h.used hA _))
    rcases mem_upTo.1 hmem with hxA | ⟨hxch, hlt⟩
    · exact hlow (mem_upTo.2 (Or.inl hxA))
    · rcases Nat.lt_succ_iff_lt_or_eq.1 hlt with hlt | heq
      · exact hlow (mem_upTo.2 (Or.inr ⟨hxch, hlt⟩))
      · exact hne (hch.injective hxch hc heq)

/-- Below the chains a block has nested or disjoint sets of labels. -/
theorem CommonChain.laminar (h : CommonChain S 𝒞 A chain rank) (hf : IsAgreement T 𝒞 f) (hST : S \ chain ⊆ T)
    (hC : C ∈ 𝒞) (hD : D ∈ 𝒞) {x y z : α} (hxy : f x = f y) (hxz : f x = f z) (hxC : x ∈ A C) (hxD : x ∈ A D)
    (hyC : y ∈ A C) (hyD : y ∉ A D) (hz : z ∈ A D) : z ∈ A C := by
  have hT := h.base_subset hST hC
  have hT' := h.base_subset hST hD
  by_contra hzC
  obtain ⟨X, hX, hxX, hzX, hyX⟩ := hf.agree D hD C hC x (hT hxC) z (hT' hz) y (hT hyC) hxz (hxz.symm.trans hxy)
    ⟨A D, (h.chained D hD).mem_base, hxD, hz, hyD⟩
  rcases (h.hierarchy C hC).nested_of_mem hX (h.chained C hC).mem_base hxX hxC with hsub | hsub
  · exact hzC (hsub hzX)
  · exact hyX (hsub hyC)

open Classical in
/-- The forests where the block of `x` passes the chain and `x` is below it. -/
noncomputable def sides (T : Finset α) (𝒞 : List (Finset (Finset α))) (A : Finset (Finset α) → Finset α)
    (chain : Finset α) (f : α → β) (x : α) : Finset (Finset (Finset α)) :=
  𝒞.toFinset.filter fun C => x ∈ A C ∧ Passes T (A C) chain f (f x)

/-- The hierarchies in which a block passes the chain from inside. -/
theorem mem_sides {x : α} : C ∈ sides T 𝒞 A chain f x ↔ C ∈ 𝒞 ∧ x ∈ A C ∧ Passes T (A C) chain f (f x) := by
  classical
  rw [sides, Finset.mem_filter, List.mem_toFinset]

/-- The chain as a block, and the blocks that pass it cut. -/
noncomputable def isolate (T : Finset α) (𝒞 : List (Finset (Finset α))) (A : Finset (Finset α) → Finset α)
    (chain : Finset α) (f : α → β) (x : α) : Option (β × Finset (Finset (Finset α))) :=
  if x ∈ chain then none else some (f x, sides T 𝒞 A chain f x)

/-- The labels of the chain come together. -/
theorem isolate_of_mem {x : α} (h : x ∈ chain) : isolate T 𝒞 A chain f x = none := if_pos h

/-- The other labels remember on which side they are. -/
theorem isolate_of_notMem {x : α} (h : x ∉ chain) :
    isolate T 𝒞 A chain f x = some (f x, sides T 𝒞 A chain f x) := if_neg h

/-- **The chain in a block of its own.** -/
theorem IsAgreement.isolate (h : CommonChain S 𝒞 A chain rank) (hf : IsAgreement T 𝒞 f)
    (hST : S \ chain ⊆ T) : IsAgreement S 𝒞 (Maf.isolate T 𝒞 A chain f) := by
  have hnone : ∀ x, Maf.isolate T 𝒞 A chain f x = none → x ∈ chain := by
    intro x hx
    by_contra hxc
    rw [isolate_of_notMem hxc] at hx
    cases hx
  have hsome : ∀ x p, Maf.isolate T 𝒞 A chain f x = some p → x ∉ chain ∧ f x = p.1 ∧ sides T 𝒞 A chain f x = p.2 := by
    intro x p hx
    have hxc : x ∉ chain := fun hc => by
      rw [isolate_of_mem hc] at hx
      cases hx
    rw [isolate_of_notMem hxc] at hx
    obtain rfl := Option.some.inj hx
    exact ⟨hxc, rfl, rfl⟩
  have hold : ∀ x ∈ S, x ∉ chain → x ∈ T := fun x hx hxc => hST (Finset.mem_sdiff.2 ⟨hx, hxc⟩)
  refine ⟨fun C hC => ⟨fun x hx y hy hxy => ?_, fun X hX p p' hp hp' => ?_⟩,
    fun C hC D hD x hx y hy z hz hxy hyz ht => ?_⟩
  · by_cases hxc : x ∈ chain
    · have hyc := hnone y (hxy.symm.trans (isolate_of_mem hxc))
      exact ⟨_, (h.chained C hC).mem_top, Finset.mem_union_right _ hxc, Finset.mem_union_right _ hyc⟩
    · obtain ⟨hyc, hyf, -⟩ := hsome y _ (hxy.symm.trans (isolate_of_notMem hxc))
      exact (hf.embeds C hC).joined x (hold x hx hxc) y (hold y hy hyc) hyf.symm
  · have hCh := h.hierarchy C hC
    have hch := h.chained C hC
    have he := hf.embeds C hC
    -- no other block is on the chain
    have apart : ∀ q, Used S (Maf.isolate T 𝒞 A chain f) X (some q) →
        Used S (Maf.isolate T 𝒞 A chain f) X none → False := by
      rintro q ⟨x, hx, y, hy, hxq, hyq, hxX, hyX⟩ ⟨c, -, c', -, hc, hc', hcX, hcX'⟩
      obtain ⟨hxc, hxf, hxs⟩ := hsome x q hxq
      obtain ⟨hyc, hyf, hys⟩ := hsome y q hyq
      replace hc := hnone c hc
      replace hc' := hnone c' hc'
      rcases hch.cases hCh hX with hXA | ⟨d, hd, rfl⟩ | ⟨k, rfl⟩ | htop | hdis
      · exact hch.notMem hc (hXA hcX)
      · exact hxc (Finset.mem_singleton.1 hxX ▸ hd)
      · -- the block passes the chain, but its labels are on one side
        have hxA : x ∈ A C := (mem_upTo.1 hxX).resolve_right fun hmem => hxc hmem.1
        have hyA : y ∉ A C := fun hmem => hyX (mem_upTo.2 (Or.inl hmem))
        have hpass : Passes T (A C) chain f (f x) := ⟨x, hxA, y, hold y hy hyc,
          fun hmem => (Finset.mem_union.1 hmem).elim hyA hyc, rfl, hyf.trans hxf.symm⟩
        have hmem : C ∈ sides T 𝒞 A chain f x := mem_sides.2 ⟨hC, hxA, hpass⟩
        rw [hxs, ← hys] at hmem
        exact hyA (mem_sides.1 hmem).2.1
      · exact hcX' (htop (Finset.mem_union_right _ hc'))
      · exact Finset.disjoint_left.1 hdis hcX (Finset.mem_union_right _ hc)
    cases p with
    | none =>
        cases p' with
        | none => rfl
        | some q => exact (apart q hp' hp).elim
    | some q =>
        cases p' with
        | none => exact (apart q hp hp').elim
        | some q' =>
            obtain ⟨x, hx, y, hy, hxq, hyq, hxX, hyX⟩ := hp
            obtain ⟨x', hx', y', hy', hxq', hyq', hxX', hyX'⟩ := hp'
            obtain ⟨hxc, hxf, hxs⟩ := hsome x q hxq
            obtain ⟨hyc, hyf, hys⟩ := hsome y q hyq
            obtain ⟨hxc', hxf', hxs'⟩ := hsome x' q' hxq'
            obtain ⟨hyc', hyf', hys'⟩ := hsome y' q' hyq'
            have hfirst : q.1 = q'.1 := he.disjoint X hX q.1 q'.1
              ⟨x, hold x hx hxc, y, hold y hy hyc, hxf, hyf, hxX, hyX⟩
              ⟨x', hold x' hx' hxc', y', hold y' hy' hyc', hxf', hyf', hxX', hyX'⟩
            -- parts of one block are told apart by a cluster of this forest, too
            have hsub : ∀ {q q' : β × Finset (Finset (Finset α))} {x y x' : α}, q.1 = q'.1 → x ∈ S → y ∈ S → x' ∈ S →
                x ∉ chain → y ∉ chain → x' ∉ chain → f x = q.1 → f y = q.1 → f x' = q'.1 →
                sides T 𝒞 A chain f x = q.2 → sides T 𝒞 A chain f y = q.2 → sides T 𝒞 A chain f x' = q'.2 →
                x ∈ X → y ∉ X → x' ∈ X → q.2 ⊆ q'.2 := by
              intro q q' x y x' hq hx hy hx' hxc hyc hxc' hxf hyf hxf' hxs hys hxs' hxX hyX hxX' D hDq
              obtain ⟨hD, hxD, hpass⟩ := mem_sides.1 (hxs ▸ hDq)
              obtain ⟨-, hyD, -⟩ := mem_sides.1 (hys ▸ hDq)
              have hxx' : f x = f x' := by rw [hxf, hxf', hq]
              rw [← hxs', mem_sides]
              refine ⟨hD, ?_, hxx' ▸ hpass⟩
              by_contra hx'D
              obtain ⟨Y, hY, hxY, hyY, hx'Y⟩ := hf.agree D hD C hC x (hold x hx hxc) y (hold y hy hyc) x'
                (hold x' hx' hxc') (hxf.trans hyf.symm) (hyf.trans (hxf.symm.trans hxx'))
                ⟨A D, (h.chained D hD).mem_base, hxD, hyD, hx'D⟩
              rcases hCh.nested_of_mem hX hY hxX hxY with hs | hs
              · exact hx'Y (hs hxX')
              · exact hyX (hs hyY)
            have hle := hsub hfirst hx hy hx' hxc hyc hxc' hxf hyf hxf' hxs hys hxs' hxX hyX hxX'
            have hge := hsub hfirst.symm hx' hy' hx hxc' hyc' hxc hxf' hyf' hxf hxs' hys' hxs hxX' hyX' hxX
            exact congrArg some (Prod.ext hfirst (hle.antisymm hge))
  · by_cases hxc : x ∈ chain
    · have hyc := hnone y (hxy.symm.trans (isolate_of_mem hxc))
      have hzc := hnone z (hyz.symm.trans (isolate_of_mem hyc))
      refine triple_of_chained (Q := chain) (R := ∅) (h.hierarchy C hC) (h.hierarchy D hD) (h.chained C hC)
        (h.chained D hD)
        (Finset.Subset.refl _) (Finset.disjoint_empty_left _) (Finset.empty_subset _) hxc (by simp) ?_
        (by simpa using hxc) (by simpa using hyc) (by simpa using hzc) ht
      intro u hu v hv w hw
      rw [insert_empty_eq, Finset.mem_singleton] at hu hv hw
      rintro ⟨X, -, huX, -, hwX⟩
      exact absurd (hu ▸ huX) (hw ▸ hwX)
    · obtain ⟨hyc, hyf, -⟩ := hsome y _ (hxy.symm.trans (isolate_of_notMem hxc))
      obtain ⟨hzc, hzf, -⟩ := hsome z _ (hyz.symm.trans (isolate_of_notMem hyc))
      exact hf.agree C hC D hD x (hold x hx hxc) y (hold y hy hyc) z (hold z hz hzc) hyf.symm hzf.symm ht

/-- **Nested or disjoint sets tell apart** one label more than there are sets. -/
theorem card_image_filter_mem_le {ι : Type*} [DecidableEq ι] (I : Finset ι) (V : ι → Finset α) (B : Finset α)
    (hlam : ∀ i ∈ I, ∀ j ∈ I, ∀ x ∈ B, x ∈ V i → x ∈ V j → V i ∩ B ⊆ V j ∨ V j ∩ B ⊆ V i) :
    (B.image fun x => I.filter (x ∈ V ·)).card ≤ I.card + 1 := by
  have hsub : (B.image fun x => I.filter (x ∈ V ·)) ⊆ insert ∅ (I.image fun i => I.filter (V i ∩ B ⊆ V ·)) := by
    intro v hv
    obtain ⟨x, hx, rfl⟩ := Finset.mem_image.1 hv
    rcases (I.filter (x ∈ V ·)).eq_empty_or_nonempty with he | hne
    · rw [he]
      exact Finset.mem_insert_self ..
    · -- the least set around the label decides
      obtain ⟨i, hi, hmin⟩ := Finset.exists_min_image _ (fun i => (V i ∩ B).card) hne
      obtain ⟨hiI, hxi⟩ := Finset.mem_filter.1 hi
      refine Finset.mem_insert_of_mem (Finset.mem_image.2 ⟨i, hiI, Finset.filter_congr fun j hj => ?_⟩)
      constructor
      · exact fun hsub => hsub (Finset.mem_inter.2 ⟨hxi, hx⟩)
      · intro hxj
        rcases hlam i hiI j hj x hx hxi hxj with hs | hs
        · exact hs
        · have hle := hmin j (Finset.mem_filter.2 ⟨hj, hxj⟩)
          have heq : V j ∩ B = V i ∩ B := Finset.eq_of_subset_of_card_le
            (fun y hy => Finset.mem_inter.2 ⟨hs hy, (Finset.mem_inter.1 hy).2⟩) hle
          rw [← heq]
          exact Finset.inter_subset_left
  calc (B.image fun x => I.filter (x ∈ V ·)).card
    _ ≤ (insert ∅ (I.image fun i => I.filter (V i ∩ B ⊆ V ·))).card := Finset.card_le_card hsub
    _ ≤ (I.image fun i => I.filter (V i ∩ B ⊆ V ·)).card + 1 := Finset.card_insert_le ..
    _ ≤ I.card + 1 := Nat.add_le_add_right Finset.card_image_le 1

open Classical in
/-- The forests where some block passes the chain. -/
noncomputable def passed (T : Finset α) (𝒞 : List (Finset (Finset α))) (A : Finset (Finset α) → Finset α)
    (chain : Finset α) (f : α → β) : Finset (Finset (Finset α)) :=
  𝒞.toFinset.filter fun C => ∃ b, Passes T (A C) chain f b

/-- The hierarchies in which some block passes the chain. -/
theorem mem_passed : C ∈ passed T 𝒞 A chain f ↔ C ∈ 𝒞 ∧ ∃ b, Passes T (A C) chain f b := by
  classical
  rw [passed, Finset.mem_filter, List.mem_toFinset]

/-- **What the isolated chain costs**: one block, and one for each forest where a block passed. -/
theorem card_isolate_le [DecidableEq β] (h : CommonChain S 𝒞 A chain rank) (hf : IsAgreement T 𝒞 f)
    (hST : S \ chain ⊆ T) : (S.image (isolate T 𝒞 A chain f)).card ≤
      ((S \ chain).image f).card + (passed T 𝒞 A chain f).card + 1 := by
  classical
  set Rest := S \ chain with hRest
  set I : β → Finset (Finset (Finset α)) := fun b => 𝒞.toFinset.filter fun C => Passes T (A C) chain f b with hI
  have hmemI : ∀ {b C}, C ∈ I b ↔ C ∈ 𝒞 ∧ Passes T (A C) chain f b := fun {b C} => by
    rw [hI, Finset.mem_filter, List.mem_toFinset]
  set pairs := Rest.image fun x => (f x, sides T 𝒞 A chain f x) with hpairs
  have himage : S.image (isolate T 𝒞 A chain f) ⊆ insert none (pairs.image some) := by
    intro p hp
    obtain ⟨x, hx, rfl⟩ := Finset.mem_image.1 hp
    by_cases hxc : x ∈ chain
    · rw [isolate_of_mem hxc]
      exact Finset.mem_insert_self ..
    · rw [isolate_of_notMem hxc]
      exact Finset.mem_insert_of_mem
        (Finset.mem_image_of_mem _ (Finset.mem_image_of_mem _ (Finset.mem_sdiff.2 ⟨hx, hxc⟩)))
  -- the parts of one block
  have hparts : ∀ b ∈ Rest.image f, (pairs.filter fun p => p.1 = b).card ≤ (I b).card + 1 := by
    intro b _
    set B := Rest.filter (f · = b) with hB
    have hBT : ∀ x ∈ B, x ∈ T ∧ f x = b := fun x hx => by
      obtain ⟨hxR, hxb⟩ := Finset.mem_filter.1 hx
      exact ⟨hST hxR, hxb⟩
    have hle : pairs.filter (fun p => p.1 = b) ⊆ (B.image fun x => (I b).filter (x ∈ A ·)).image fun v => (b, v) := by
      intro p hp
      obtain ⟨hp, hpb⟩ := Finset.mem_filter.1 hp
      obtain ⟨x, hx, rfl⟩ := Finset.mem_image.1 hp
      have hxB : x ∈ B := Finset.mem_filter.2 ⟨hx, hpb⟩
      refine Finset.mem_image.2 ⟨_, Finset.mem_image_of_mem _ hxB, Prod.ext hpb.symm ?_⟩
      ext C
      simp only [Finset.mem_filter, hmemI, mem_sides]
      rw [show f x = b from hpb]
      tauto
    refine (Finset.card_le_card hle).trans (Finset.card_image_le.trans (card_image_filter_mem_le _ _ _ ?_))
    intro C hC D hD x hx hxC hxD
    by_contra hno
    rw [not_or, Finset.not_subset, Finset.not_subset] at hno
    obtain ⟨⟨y, hy, hyD⟩, z, hz, hzC⟩ := hno
    rw [Finset.mem_inter] at hy hz
    have hxb := (hBT x hx).2
    exact hzC (h.laminar hf hST (hmemI.1 hC).1 (hmemI.1 hD).1 (hxb.trans (hBT y hy.2).2.symm)
      (hxb.trans (hBT z hz.2).2.symm) hxC hxD hy.1 hyD hz.1)
  have hsum : ∑ b ∈ Rest.image f, (I b).card ≤ (passed T 𝒞 A chain f).card := by
    rw [← Finset.card_biUnion]
    · refine Finset.card_le_card fun C hC => ?_
      obtain ⟨b, -, hCb⟩ := Finset.mem_biUnion.1 hC
      exact mem_passed.2 ⟨(hmemI.1 hCb).1, b, (hmemI.1 hCb).2⟩
    · intro b _ b' _ hne
      refine Finset.disjoint_left.2 fun C hC hC' => hne ?_
      obtain ⟨hCmem, hpass⟩ := hmemI.1 hC
      exact hpass.unique (hf.embeds C hCmem) (h.chained C hCmem) (h.base_subset hST hCmem) (hmemI.1 hC').2
  have hmaps : ∀ p ∈ pairs, p.1 ∈ Rest.image f := fun p hp => by
    obtain ⟨x, hx, rfl⟩ := Finset.mem_image.1 hp
    exact Finset.mem_image_of_mem f hx
  calc (S.image (isolate T 𝒞 A chain f)).card
    _ ≤ (insert none (pairs.image some)).card := Finset.card_le_card himage
    _ ≤ pairs.card + 1 := (Finset.card_insert_le ..).trans (Nat.add_le_add_right Finset.card_image_le 1)
    _ = ∑ b ∈ Rest.image f, (pairs.filter fun p => p.1 = b).card + 1 := by
      rw [Finset.card_eq_sum_card_fiberwise hmaps]
    _ ≤ ∑ b ∈ Rest.image f, ((I b).card + 1) + 1 := Nat.add_le_add_right (Finset.sum_le_sum hparts) 1
    _ = ∑ b ∈ Rest.image f, (I b).card + (Rest.image f).card + 1 := by rw [Finset.sum_add_distrib,
      Finset.card_eq_sum_ones]
    _ ≤ (Rest.image f).card + (passed T 𝒞 A chain f).card + 1 := by omega

end Isolate

section Lengthen

variable {S T chain : Finset α} {C D : Finset (Finset α)} {rank : α → ℕ} {𝒞 : List (Finset (Finset α))}
  {A : Finset (Finset α) → Finset α} {f : α → β} {c c' x : α}

/-- With two labels of the chain in its block a label is below the chain in all forests or in none. -/
theorem CommonChain.base_of_two (h : CommonChain S 𝒞 A chain rank) (hf : IsAgreement T 𝒞 f) (hc : c ∈ T ∩ chain)
    (hc' : c' ∈ T ∩ chain) (hne : c ≠ c') (hcc' : f c = f c') (hx : x ∈ T) (hxc : x ∉ chain) (hxf : f x = f c)
    (hC : C ∈ 𝒞) (hD : D ∈ 𝒞) (hxC : x ∈ A C) : x ∈ A D := by
  have key : ∀ {c c'}, c ∈ T ∩ chain → c' ∈ T ∩ chain → rank c < rank c' → f c = f c' → f x = f c → x ∈ A D := by
    intro c c' hc hc' hlt hcc' hxf
    rw [Finset.mem_inter] at hc hc'
    have hch := h.chained C hC
    obtain ⟨X, hX, hcX, hxX, hc'X⟩ := hf.agree C hC D hD c hc.1 x hx c' hc'.1 hxf.symm (hxf.trans hcc')
      ⟨_, hch.mem (rank c + 1), (hch.mem_upTo_iff hc.2).2 (Nat.lt_succ_self _), mem_upTo.2 (Or.inl hxC),
        fun hmem => absurd ((hch.mem_upTo_iff hc'.2).1 hmem) (by omega)⟩
    by_contra hxD
    have hout : x ∉ A D ∪ chain := fun hmem => (Finset.mem_union.1 hmem).elim hxD hxc
    exact hc'X ((h.chained D hD).top_subset (h.hierarchy D hD) hX (Finset.mem_union_right _ hc.2) hcX hout hxX
      (Finset.mem_union_right _ hc'.2))
  have hinj := (h.chained C hC).injective
  rcases lt_trichotomy (rank c) (rank c') with hlt | heq | hlt
  · exact key hc hc' hlt hcc' hxf
  · exact absurd (hinj (Finset.mem_inter.1 hc).2 (Finset.mem_inter.1 hc').2 heq) hne
  · exact key hc' hc hlt hcc'.symm (hxf.trans hcc')

/-- A block that is below the chain in one forest with a label that it has above the chain in another one
does not pass there. -/
theorem CommonChain.not_passes (h : CommonChain S 𝒞 A chain rank) (hf : IsAgreement T 𝒞 f) (hST : S \ chain ⊆ T)
    (hc : c ∈ T ∩ chain) (hx : x ∈ T) (hxc : x ∉ chain) (hxf : f x = f c) (hC : C ∈ 𝒞) (hD : D ∈ 𝒞) (hxC : x ∈ A C)
    (hxD : x ∉ A D) : ¬Passes T (A D) chain f (f c) := by
  rintro ⟨y, hy, -, -, -, hyf, -⟩
  rw [Finset.mem_inter] at hc
  have hch := h.chained D hD
  have hyT := h.base_subset hST hD hy
  obtain ⟨X, hX, hyX, hcX, hxX⟩ := hf.agree D hD C hC y hyT c hc.1 x hx hyf hxf.symm
    ⟨_, hch.mem (rank c + 1), mem_upTo.2 (Or.inl hy), (hch.mem_upTo_iff hc.2).2 (Nat.lt_succ_self _),
      fun hmem => (mem_upTo.1 hmem).elim hxD fun hmem => hxc hmem.1⟩
  have hch' := h.chained C hC
  by_cases hyC : y ∈ A C
  · rcases (h.hierarchy C hC).nested_of_mem hX hch'.mem_base hyX hyC with hs | hs
    · exact hch'.notMem hc.2 (hs hcX)
    · exact hxX (hs hxC)
  · have hout : y ∉ A C ∪ chain := fun hmem => (Finset.mem_union.1 hmem).elim hyC fun hyc => hch.notMem hyc hy
    exact hxX (hch'.top_subset (h.hierarchy C hC) hX (Finset.mem_union_right _ hc.2) hcX hout hyX
      (Finset.mem_union_left _ hxC))

/-- The labels `S` need no more blocks than the labels `T`. -/
def Lengthens [DecidableEq β] (S T : Finset α) (𝒞 : List (Finset (Finset α))) (f : α → β) : Prop :=
  ∃ g : α → Option (β × Finset (Finset (Finset α))), IsAgreement S 𝒞 g ∧ (S.image g).card ≤ (T.image f).card

/-- **Labels of the chain in blocks of their own** pay for the chain as a block. -/
theorem lengthens_of_card [DecidableEq β] (h : CommonChain S 𝒞 A chain rank) (hf : IsAgreement T 𝒞 f)
    (hST : S \ chain ⊆ T)
    {V : Finset α} (hV : V ⊆ T ∩ chain) (hinj : Set.InjOn f V) (hpure : ∀ c ∈ V, ∀ x ∈ S \ chain, f x ≠ f c)
    (hcard : (passed T 𝒞 A chain f).card < V.card) : Lengthens S T 𝒞 f := by
  refine ⟨_, hf.isolate h hST, (card_isolate_le h hf hST).trans ?_⟩
  have hdis : Disjoint ((S \ chain).image f) (V.image f) := by
    rw [Finset.disjoint_left]
    intro b hb hb'
    obtain ⟨x, hx, rfl⟩ := Finset.mem_image.1 hb
    obtain ⟨c, hc, hcx⟩ := Finset.mem_image.1 hb'
    exact hpure c hc x hx hcx.symm
  calc ((S \ chain).image f).card + (passed T 𝒞 A chain f).card + 1
    _ ≤ ((S \ chain).image f).card + (V.image f).card := by
      rw [Finset.card_image_of_injOn hinj]
      omega
    _ = ((S \ chain).image f ∪ V.image f).card := (Finset.card_union_of_disjoint hdis).symm
    _ ≤ (T.image f).card := Finset.card_le_card (Finset.union_subset (Finset.image_subset_image hST)
      (Finset.image_subset_image (hV.trans Finset.inter_subset_left)))

/-- Labels that join a block add none. -/
theorem lengthens_of_gather [DecidableEq β] {Q : Finset α} (hc : c ∈ T) (hSQ : S ⊆ T ∪ Q)
    (hg : IsAgreement S 𝒞 (gather f Q (f c))) : Lengthens S T 𝒞 f := by
  have hinj : Function.Injective fun b : β => some (b, (∅ : Finset (Finset (Finset α)))) := fun b b' hb =>
    (Prod.mk.inj (Option.some.inj hb)).1
  refine ⟨fun x => some (gather f Q (f c) x, ∅),
    hg.congr fun x _ y _ => (hinj.eq_iff (a := gather f Q (f c) x)).symm, ?_⟩
  calc (S.image fun x => some (gather f Q (f c) x, (∅ : Finset (Finset (Finset α))))).card
    _ = ((S.image (gather f Q (f c))).image fun b => some (b, (∅ : Finset (Finset (Finset α))))).card := by
      rw [Finset.image_image]
      rfl
    _ = (S.image (gather f Q (f c))).card := Finset.card_image_of_injective _ hinj
    _ ≤ (T.image f).card := Finset.card_le_card fun b hb => by
      obtain ⟨x, hx, rfl⟩ := Finset.mem_image.1 hb
      by_cases hxQ : x ∈ Q
      · rw [gather_of_mem hxQ]
        exact Finset.mem_image_of_mem f hc
      · rw [gather_of_notMem hxQ]
        exact Finset.mem_image_of_mem f ((Finset.mem_union.1 (hSQ hx)).resolve_right hxQ)

/-- A block on the chain with no label of it passes it. -/
theorem passes_of_used {n : ℕ} {b : β} (halone : ∀ c ∈ T ∩ chain, f c = b → ∀ x ∈ T, f x = b → x = c)
    (hused : Used T f (upTo (A C) chain rank n) b) : Passes T (A C) chain f b := by
  obtain ⟨x, hx, y, hy, hxb, hyb, hxn, hyn⟩ := hused
  have hxy : x ≠ y := fun he => hyn (he ▸ hxn)
  have hxc : x ∉ chain := fun hc => hxy (halone x (Finset.mem_inter.2 ⟨hx, hc⟩) hxb y hy hyb).symm
  have hyc : y ∉ chain := fun hc => hxy (halone y (Finset.mem_inter.2 ⟨hy, hc⟩) hyb x hx hxb)
  have hyA : y ∉ A C := fun hA => hyn (mem_upTo.2 (Or.inl hA))
  exact ⟨x, (mem_upTo.1 hxn).resolve_right fun hmem => hxc hmem.1, y, hy,
    fun hmem => (Finset.mem_union.1 hmem).elim hyA hyc, hxb, hyb⟩

/-- **The whole chain in the block of one of its labels**, when this block has the same labels below the chain
everywhere and no other block with labels off the chain is on it. -/
theorem lengthens_of_join [DecidableEq β] (h : CommonChain S 𝒞 A chain rank) (hf : IsAgreement T 𝒞 f) (hTS : T ⊆ S)
    (hST : S \ chain ⊆ T) (hc : c ∈ T ∩ chain)
    (hsame : ∀ C ∈ 𝒞, ∀ D ∈ 𝒞, ∀ x ∈ T, x ∉ chain → f x = f c → x ∈ A C → x ∈ A D)
    (halone : ∀ c' ∈ T ∩ chain, f c' ≠ f c → ∀ x ∈ T, f x = f c' → x = c')
    (honly : ∀ C ∈ 𝒞, ∀ b, Passes T (A C) chain f b → b = f c) : Lengthens S T 𝒞 f := by
  obtain ⟨hcT, hcc⟩ := Finset.mem_inter.1 hc
  have hS : S ⊆ T ∪ chain := fun x hx => by
    by_cases hxc : x ∈ chain
    · exact Finset.mem_union_right _ hxc
    · exact Finset.mem_union_left _ (hST (Finset.mem_sdiff.2 ⟨hx, hxc⟩))
  refine lengthens_of_gather hcT hS (hf.gather h hTS (Finset.Subset.refl _) hS hcc hcT rfl (fun c hc _ _ => hc) hsame
    fun C hC n b hb hused _ => hb (honly C hC b (passes_of_used (fun c' hc' hcb x hx hxb => ?_) hused)))
  exact halone c' hc' (fun he => hb (hcb.symm.trans he)) x hx (hxb.trans hcb.symm)

/-- **Where a block passes the chain.** -/
theorem lengthens_of_passes [DecidableEq β] (h : CommonChain S 𝒞 A chain rank) (hf : IsAgreement T 𝒞 f) (hTS : T ⊆ S)
    (hST : S \ chain ⊆ T) (hlen : 𝒞.length < (T ∩ chain).card) (hC : C ∈ 𝒞) {b : β} (hb : Passes T (A C) chain f b) :
    Lengthens S T 𝒞 f := by
  have hbase : ∀ C ∈ 𝒞, A C ⊆ T := fun C hC => h.base_subset hST hC
  have halone : ∀ c ∈ T ∩ chain, f c ≠ b → ∀ x ∈ T, f x = f c → x = c := fun c hc hcb x hx hxc =>
    hb.alone (hf.embeds C hC) (h.chained C hC) (hbase C hC)
      (Finset.mem_inter.1 hc).2 (Finset.mem_inter.1 hc).1 hcb hx hxc
  have hle : (passed T 𝒞 A chain f).card ≤ 𝒞.length :=
    (Finset.card_le_card fun C hC => List.mem_toFinset.2 (mem_passed.1 hC).1).trans 𝒞.toFinset_card_le
  -- labels of the chain outside of the block are blocks of their own
  have hpaid : ∀ V ⊆ T ∩ chain, (∀ c ∈ V, f c ≠ b) → (passed T 𝒞 A chain f).card < V.card → Lengthens S T 𝒞 f := by
    intro V hV hout hcard
    refine lengthens_of_card h hf hST hV (fun c hc c' hc' he => ?_) (fun c hc x hx he => ?_) hcard
    · exact halone c' (hV hc') (hout c' hc') c (Finset.mem_inter.1 (hV hc)).1 he
    · have := halone c (hV hc) (hout c hc) x (hST hx) he
      exact (Finset.mem_sdiff.1 hx).2 (this ▸ (Finset.mem_inter.1 (hV hc)).2)
  by_cases hin : ∃ k ∈ T ∩ chain, f k = b
  · obtain ⟨k, hk, rfl⟩ := hin
    obtain ⟨hkT, hkc⟩ := Finset.mem_inter.1 hk
    obtain ⟨x₀, hx₀, -, -, -, hx₀k, -⟩ := id hb
    -- the block of `k` has a label off the chain, so no other block passes anywhere
    have honly : ∀ D ∈ 𝒞, ∀ d, Passes T (A D) chain f d → d = f k := by
      intro D hD d hd
      by_contra hne
      have := hd.alone (hf.embeds D hD) (h.chained D hD) (hbase D hD) hkc hkT (Ne.symm hne) (hbase C hC hx₀) hx₀k
      exact (h.chained C hC).notMem (this ▸ hkc) hx₀
    by_cases hsame : ∀ C ∈ 𝒞, ∀ D ∈ 𝒞, ∀ x ∈ T, x ∉ chain → f x = f k → x ∈ A C → x ∈ A D
    · exact lengthens_of_join h hf hTS hST hk hsame halone honly
    · push Not at hsame
      obtain ⟨E, hE, D, hD, x, hx, hxc, hxk, hxE, hxD⟩ := hsame
      -- `k` is the only label of the chain in its block, and the block does not pass in `D`
      have hnot : D ∉ passed T 𝒞 A chain f := fun hmem => by
        obtain ⟨-, d, hd⟩ := mem_passed.1 hmem
        exact h.not_passes hf hST hk hx hxc hxk hE hD hxE hxD (honly D hD d hd ▸ hd)
      refine hpaid ((T ∩ chain).erase k) (Finset.erase_subset _ _) (fun c hc he => ?_) ?_
      · obtain ⟨hck, hc⟩ := Finset.mem_erase.1 hc
        exact hxD (h.base_of_two hf hc hk hck he hx hxc (hxk.trans he.symm) hE hD hxE)
      · have hlt : (passed T 𝒞 A chain f).card < 𝒞.length := by
          refine lt_of_lt_of_le (Finset.card_lt_card (t := 𝒞.toFinset) ?_) 𝒞.toFinset_card_le
          refine (Finset.ssubset_iff_of_subset fun E hE => List.mem_toFinset.2 (mem_passed.1 hE).1).2 ?_
          exact ⟨D, List.mem_toFinset.2 hD, hnot⟩
        rw [Finset.card_erase_of_mem hk]
        omega
  · exact hpaid (T ∩ chain) (Finset.Subset.refl _) (fun c hc he => hin ⟨c, hc, he⟩) (hle.trans_lt hlen)

/-- **Where two blocks share the chain**: the one that leaves it at the upper end takes what is missing. -/
theorem lengthens_of_shared [DecidableEq β] (h : CommonChain S 𝒞 A chain rank) (hf : IsAgreement T 𝒞 f) (hTS : T ⊆ S)
    (hST : S \ chain ⊆ T) (hlow : ∀ c ∈ T ∩ chain, ∀ e ∈ chain, e ∉ T → rank c < rank e) {k : α} (hk : k ∈ T ∩ chain)
    (hmax : ∀ c ∈ T ∩ chain, rank c ≤ rank k) (hmixed : ∀ c ∈ T ∩ chain, ∃ x ∈ S \ chain, f x = f c)
    (hc : c ∈ T ∩ chain) (hck : f c ≠ f k) : Lengthens S T 𝒞 f := by
  classical
  obtain ⟨hkT, hkc⟩ := Finset.mem_inter.1 hk
  obtain ⟨hcT, hcc⟩ := Finset.mem_inter.1 hc
  -- the block of `c` leaves the chain, so the one of `k` has no label below it
  have hhigh : ∀ C ∈ 𝒞, ∀ x ∈ T, x ∉ chain → f x = f k → x ∉ A C := by
    intro C hC x hx hxc hxk hxC
    have hch := h.chained C hC
    have he := hf.embeds C hC
    have hlt : rank c < rank k := lt_of_le_of_ne (hmax c hc) fun he => hck (congrArg f (hch.injective hcc hkc he))
    obtain ⟨w, hw, hwc⟩ := hmixed c hc
    have hwT := hST hw
    have hwch := (Finset.mem_sdiff.1 hw).2
    by_cases hwA : w ∈ A C
    · exact hck (he.disjoint _ hch.mem_base _ _ ⟨w, hwT, c, hcT, hwc, rfl, hwA, hch.notMem hcc⟩
        ⟨x, hx, k, hkT, hxk, rfl, hxC, hch.notMem hkc⟩)
    · refine hck (he.disjoint _ (hch.mem (rank c + 1)) _ _ ⟨c, hcT, w, hwT, rfl, hwc, ?_, ?_⟩
        ⟨x, hx, k, hkT, hxk, rfl, mem_upTo.2 (Or.inl hxC), fun hmem => ?_⟩)
      · exact (hch.mem_upTo_iff hcc).2 (Nat.lt_succ_self _)
      · exact fun hmem => (mem_upTo.1 hmem).elim hwA fun hmem => hwch hmem.1
      · exact absurd ((hch.mem_upTo_iff hkc).1 hmem) (by omega)
  obtain ⟨y₀, hy₀, hy₀k⟩ := hmixed k hk
  have hy₀T := hST hy₀
  have hy₀c := (Finset.mem_sdiff.1 hy₀).2
  have hy₀out : ∀ C ∈ 𝒞, ∀ n, y₀ ∉ upTo (A C) chain rank n := fun C hC n hmem =>
    (mem_upTo.1 hmem).elim (hhigh C hC y₀ hy₀T hy₀c hy₀k) fun hmem => hy₀c hmem.1
  set Q := chain.filter fun e => e ∉ T ∨ f e = f k with hQ
  have hmemQ : ∀ {e}, e ∈ Q ↔ e ∈ chain ∧ (e ∉ T ∨ f e = f k) := fun {e} => by rw [hQ, Finset.mem_filter]
  have hkQ : k ∈ Q := hmemQ.2 ⟨hkc, Or.inr rfl⟩
  have hSQ : S ⊆ T ∪ Q := fun x hx => by
    by_cases hxT : x ∈ T
    · exact Finset.mem_union_left _ hxT
    · refine Finset.mem_union_right _ (hmemQ.2 ⟨?_, Or.inl hxT⟩)
      by_contra hxc
      exact hxT (hST (Finset.mem_sdiff.2 ⟨hx, hxc⟩))
  refine lengthens_of_gather hkT hSQ (hf.gather h hTS (Finset.filter_subset _ _) hSQ hkQ hkT rfl
    (fun e he _ hek => hmemQ.2 ⟨he, Or.inr hek⟩)
    (fun C hC D hD x hx hxc hxk hxC => absurd hxC (hhigh C hC x hx hxc hxk)) fun C hC n b hb hused hgathered => ?_)
  have hch := h.chained C hC
  have he := hf.embeds C hC
  obtain ⟨x, hx, -, -, hxk, -, hxn, -⟩ := hgathered
  -- of the block only labels of the chain are below the edge
  have hxQ : x ∈ Q := by
    by_contra hxQ
    rw [gather_of_notMem hxQ] at hxk
    have hxT := (Finset.mem_union.1 (hSQ hx)).resolve_right hxQ
    have hxc : x ∉ chain := fun hxc => hxQ (hmemQ.2 ⟨hxc, Or.inr hxk⟩)
    exact (mem_upTo.1 hxn).elim (hhigh C hC x hxT hxc hxk) fun hmem => hxc hmem.1
  obtain ⟨hxc, hor⟩ := hmemQ.1 hxQ
  by_cases hxT : x ∈ T
  · exact hb (he.disjoint _ (hch.mem n) _ _ hused
      ⟨x, hxT, y₀, hy₀T, hor.resolve_left (not_not.2 hxT), hy₀k, hxn, hy₀out C hC n⟩)
  · -- the whole chain that is there is below it, so the other block leaves it at the top
    have hbelow : ∀ e ∈ T ∩ chain, rank e < n := fun e heT =>
      (hlow e heT x hxc hxT).trans ((hch.mem_upTo_iff hxc).1 hxn)
    obtain ⟨v, hv, w, hw, hvb, hwb, hvn, hwn⟩ := hused
    refine hb (he.disjoint _ (hch.mem (rank k + 1)) _ _ ⟨v, hv, w, hw, hvb, hwb, ?_, ?_⟩
      ⟨k, hkT, y₀, hy₀T, rfl, hy₀k, (hch.mem_upTo_iff hkc).2 (Nat.lt_succ_self _), hy₀out C hC _⟩)
    · refine mem_upTo.2 ((mem_upTo.1 hvn).imp_right fun hmem => ⟨hmem.1, ?_⟩)
      exact Nat.lt_succ_of_le (hmax v (Finset.mem_inter.2 ⟨hv, hmem.1⟩))
    · intro hmem
      rcases mem_upTo.1 hmem with hwA | ⟨hwc, -⟩
      · exact hwn (mem_upTo.2 (Or.inl hwA))
      · exact hwn (mem_upTo.2 (Or.inr ⟨hwc, hbelow w (Finset.mem_inter.2 ⟨hw, hwc⟩)⟩))

/-- **A long common chain can be made longer**: when more of its labels are there than there are
forests, those that are missing at its upper end need no block more. -/
theorem lengthens_of_chain [DecidableEq β] (h : CommonChain S 𝒞 A chain rank) (hf : IsAgreement T 𝒞 f)
    (hTS : T ⊆ S) (hST : S \ chain ⊆ T) (hlow : ∀ c ∈ T ∩ chain, ∀ e ∈ chain, e ∉ T → rank c < rank e)
    (hlen : 𝒞.length < (T ∩ chain).card) : Lengthens S T 𝒞 f := by
  by_cases hpass : ∃ C ∈ 𝒞, ∃ b, Passes T (A C) chain f b
  · obtain ⟨C, hC, b, hb⟩ := hpass
    exact lengthens_of_passes h hf hTS hST hlen hC hb
  by_cases hpure : ∃ k ∈ T ∩ chain, ∀ x ∈ S \ chain, f x ≠ f k
  · obtain ⟨k, hk, hkpure⟩ := hpure
    have hzero : (passed T 𝒞 A chain f).card = 0 := by
      refine Finset.card_eq_zero.2 (Finset.eq_empty_of_forall_notMem fun C hC => hpass ?_)
      obtain ⟨hC, b, hb⟩ := mem_passed.1 hC
      exact ⟨C, hC, b, hb⟩
    refine lengthens_of_card h hf hST (Finset.singleton_subset_iff.2 hk) (by simp) (fun c hc => ?_) ?_
    · rwa [Finset.mem_singleton.1 hc]
    · rw [hzero, Finset.card_singleton]
      exact Nat.one_pos
  -- the highest label of the chain
  obtain ⟨k, hk, hmax⟩ := Finset.exists_max_image (T ∩ chain) rank (Finset.card_pos.1 (by omega))
  by_cases hone : ∀ c ∈ T ∩ chain, f c = f k
  · refine lengthens_of_join h hf hTS hST hk (fun C hC D hD x hx hxc hxk hxC => ?_)
      (fun c hc hck => absurd (hone c hc) hck) fun C hC b hb => absurd ⟨C, hC, b, hb⟩ hpass
    have htwo : 1 < (T ∩ chain).card := lt_of_le_of_lt (List.length_pos_of_mem hC) hlen
    obtain ⟨c, hc, hck⟩ := Finset.exists_mem_ne htwo k
    exact h.base_of_two hf hc hk hck (hone c hc) hx hxc (hxk.trans (hone c hc).symm) hC hD hxC
  · push Not at hpure hone
    obtain ⟨c, hc, hck⟩ := hone
    exact lengthens_of_shared h hf hTS hST hlow hk hmax hpure hc hck

end Lengthen

end Maf
