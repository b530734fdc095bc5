/-
# The pass makes progress

Every procedure of `RedBlue2` in `src/Solver/Approximation/RedBlueDual.cpp` ends, and
every iteration of its main loop deactivates a leaf.  The invariant is that the cuts of the
first tree lie off the active labels (`Holds`): what `cutOffLeaf` detaches there holds one
active label, and that one is deactivated next.  So the active labels stay connected in
the first tree, a set of them below a node has a cherry, and the loops over `R` and `B`
end with two and with one of them (`ends_resolveSet`, `ends_resolveTriplet`).
-/

import Maf.Approx.MinIncompat

namespace Maf
namespace Approx
namespace RedBlue2

open MutableForestView
open ExceptState (Ends Finds)

variable {T : Side → Tree} {K : Side → Finset Ptr} {A B : Finset Label} {s : RedBlue2} {v : Side}

/-- The labels `A` are active, and the cuts of the first tree lie off `B`. -/
def HoldsOff (T : Side → Tree) (A B : Finset Label) (s : RedBlue2) : Prop := ∃ K, At T K A s ∧ Clear T K B

/-- **The invariant of the pass**: the cuts of the first tree lie off the active labels. -/
abbrev Holds (T : Side → Tree) (A : Finset Label) (s : RedBlue2) : Prop := HoldsOff T A A s

/-- Fewer active labels keep the first tree clear. -/
theorem Clear.mono {A' : Finset Label} (h : Clear T K A) (hsub : A' ⊆ A) : Clear T K A' := fun Y hY =>
  (h Y hY).mono_right hsub

/-- What holds for the cuts of the first tree is not changed by one of the second. -/
theorem Clear.update_t2 (h : Clear T K B) (X : Finset Ptr) : Clear T (Function.update K .t2 X) B := by
  rwa [Clear, Function.update_of_ne (by decide)]

/-- A query. -/
theorem finds_holds {α : Type} {f : Run α} {p : α → Prop} (h : ∀ K, Clear T K B → Finds (At T K A) f p) :
    Finds (HoldsOff T A B) f p :=
  Ends.exists_pre fun K => Ends.and_pre fun hK => Ends.conseq (h K hK) (fun _ h => h)
    fun _ _ hs => ⟨⟨K, hs.1, hK⟩, hs.2⟩

/-- A query whose answer does not matter. -/
theorem finds_any {α : Type} {f : Run α} {p : (Side → Finset Ptr) → α → Prop}
    (h : ∀ K, Clear T K B → Finds (At T K A) f (p K)) : Finds (HoldsOff T A B) f fun _ => True :=
  finds_holds fun K hK => (h K hK).imp fun _ _ => trivial

/-- Adding to the dual sum changes no tree. -/
theorem ends_addDual {d : ℤ} : Ends (fun _ => False) (HoldsOff T A B) (addDual d) fun _ => HoldsOff T A B :=
  Ends.modify fun s ⟨K, h, hK⟩ => ⟨K, h.credit (s.dualSum + d) s.sawStar, hK⟩

/-- The flag of a star changes no tree. -/
theorem ends_sawStar {b : Bool} :
    Ends (fun _ => False) (HoldsOff T A B) (modify fun s => { s with sawStar := b } : Run Unit)
      fun _ => HoldsOff T A B :=
  Ends.modify fun s ⟨K, h, hK⟩ => ⟨K, h.credit s.dualSum b, hK⟩

/-- A label is deactivated. -/
theorem ends_deactivate {x : Label} :
    Ends (fun _ => False) (HoldsOff T A B) (deactivate x) fun _ => HoldsOff T (A.erase x) B :=
  Ends.modify fun _ ⟨K, h, hK⟩ => ⟨K, h.deactivate x, hK⟩

/-- A label is deactivated, and the cuts stay off the active labels. -/
theorem ends_deactivate_holds {x : Label} :
    Ends (fun _ => False) (Holds T A) (deactivate x) fun _ => Holds T (A.erase x) :=
  Ends.conseq ends_deactivate (fun _ h => h) fun _ _ ⟨K, h, hK⟩ => ⟨K, h, hK.mono (Finset.erase_subset _ _)⟩

section Cuts

variable (hT : ∀ v, WellFormed [T v]) (hA : ∀ v, A ⊆ (T v).labels)

include hT hA

/-- Cutting a leaf of the second tree off keeps the first tree clear. -/
theorem ends_cutOffLeaf_t2 {x : Label} (hx : x ∈ A) :
    Ends (fun _ => False) (HoldsOff T A B) (cutOffLeaf .t2 x) fun _ => HoldsOff T A B :=
  Ends.exists_pre fun K => Ends.and_pre fun hK =>
    Ends.conseq (ends_cutOffLeaf hT hx (hA .t2)) (fun _ h => h) fun _ _ h =>
    h.elim (fun h => ⟨K, h, hK⟩) fun ⟨_, _, _, h⟩ => ⟨_, h, hK.update_t2 _⟩

/-- Cutting a pendant of the second tree off keeps the first tree clear. -/
theorem ends_cutPendant_t2 {x : Label} (hx : x ∈ A) :
    Ends (fun _ => False) (HoldsOff T A B) (cutPendant .t2 x) fun _ => HoldsOff T A B :=
  Ends.exists_pre fun K => Ends.and_pre fun hK =>
    Ends.conseq (ends_cutPendant hT (hA .t2 hx)) (fun _ h => h) fun _ _ h =>
    h.elim (fun h => ⟨K, h, hK⟩) fun ⟨_, _, h⟩ => ⟨_, h, hK.update_t2 _⟩

omit hA in
/-- Cutting an edge of the second tree keeps the first tree clear. -/
theorem ends_cutEdge_t2 {u : Tree} (hu : u ∈ Forest.subtrees [T .t2]) :
    Ends (fun _ => False) (HoldsOff T A B) (cutEdge .t2 u.ptr) fun _ => HoldsOff T A B :=
  Ends.modify fun _ ⟨_, h, hK⟩ => ⟨_, h.cutEdge hT hu, hK.update_t2 _⟩

/-- **What is cut off in the first tree holds one active label.** -/
theorem ends_cutOffLeaf_t1 {x : Label} (hx : x ∈ A) :
    Ends (fun _ => False) (Holds T A) (cutOffLeaf .t1 x) fun _ => HoldsOff T A (A.erase x) := by
  refine Ends.exists_pre fun K => Ends.and_pre fun hK => Ends.conseq (ends_cutOffLeaf hT hx (hA .t1)) (fun _ h => h)
    fun _ s h => ?_
  rcases h with h | ⟨u, hu, hux, h⟩
  · exact ⟨K, h, hK.mono (Finset.erase_subset _ _)⟩
  · refine ⟨_, h, fun Y hY => ?_⟩
    rw [Function.update_self, cutClusters_insert (hT .t1) hu] at hY
    rcases Finset.mem_insert.1 hY with rfl | hY
    · refine Finset.disjoint_left.2 fun y hyu hy => ?_
      have : y ∈ activeAt T K A .t1 u := by
        rw [hK.activeAt_eq]
        exact Finset.mem_inter.2 ⟨hyu, Finset.mem_of_mem_erase hy⟩
      rw [hux, Finset.mem_singleton] at this
      exact Finset.ne_of_mem_erase hy this
    · exact (hK Y hY).mono_right (Finset.erase_subset _ _)

/-- `settle` takes its label out of the active ones. -/
theorem ends_settle {x : Label} (hx : x ∈ A) :
    Ends (fun _ => False) (Holds T A) (settle x) fun _ => Holds T (A.erase x) :=
  Ends.bind (ends_cutOffLeaf_t1 hT hA hx) fun _ => Ends.bind ends_deactivate fun _ => ends_addDual

/-- `finalize` takes its label out of the active ones. -/
theorem ends_finalize {x : Label} (hx : x ∈ A) :
    Ends (fun _ => False) (Holds T A) (finalize x) fun _ => Holds T (A.erase x) :=
  (finds_any fun _ _ => finds_aloneInTree hT steady_at (hA .t2 hx)).bind fun _ _ => Ends.ite
    (fun _ => Ends.bind (ends_cutOffLeaf_t2 hT hA hx) fun _ => ends_settle hT hA hx) fun _ => ends_settle hT hA hx

/-- **`resolvePair` deactivates one of the two labels.** -/
theorem ends_resolvePair {x y : Label} (hx : x ∈ A) (hy : y ∈ A) (hxy : x ≠ y) (U : List Label) :
    Ends (fun _ => False) (Holds T A) (resolvePair x y U) fun _ s => ∃ z, (z = x ∨ z = y) ∧ Holds T (A.erase z) s := by
  have hx₂ := hA .t2 hx
  have hy₂ := hA .t2 hy
  have hsib : ∀ {x y : Label}, x ∈ A → y ∈ A → x ≠ y → Finds (Holds T A) (activeSiblings .t2 x y) fun _ => True :=
    fun hx hy hxy => finds_any fun _ _ => finds_activeSiblings hT steady_at hx hy (hA .t2) hxy
  have hend : ∀ {f : Run Unit} {z : Label}, (z = x ∨ z = y) → Ends (fun _ => False)
    (Holds T A) f (fun _ => Holds T (A.erase z)) →
      Ends (fun _ => False) (Holds T A) f fun _ s => ∃ z, (z = x ∨ z = y) ∧ Holds T (A.erase z) s := fun hz hf =>
    Ends.conseq hf (fun _ h => h) fun _ _ h => ⟨_, hz, h⟩
  refine (finds_any fun _ _ => finds_sameTree hT (fun _ h => h) hx₂ hy₂).bind fun same _ => Ends.ite (fun _ => ?_)
    fun _ => ?_
  · refine (hsib hx hy hxy).bind fun sib _ => Ends.ite (fun _ => hend (Or.inl rfl) ends_deactivate_holds) fun _ => ?_
    refine (finds_any fun _ _ => finds_pBelowLca hT hx₂ hy₂).bind fun below _ => ?_
    -- the cut pendant and what follows, for the one of the two below which it hangs
    have hcut : ∀ {z w : Label}, (z = x ∨ z = y) → z ∈ A → w ∈ A → z ≠ w → Ends (fun _ => False) (Holds T A) (do
        cutPendant .t2 z
        addDual (-1)
        if ← activeSiblings .t2 z w then
          deactivate z
          addDual 1
          modify fun s => { s with sawStar := true }
        else
          cutOffLeaf .t1 z
          cutOffLeaf .t2 z
          deactivate z
          addDual 1) fun _ s => ∃ z, (z = x ∨ z = y) ∧ Holds T (A.erase z) s := by
      intro z w hor hz hw hzw
      refine hend hor (Ends.bind (ends_cutPendant_t2 hT hA hz) fun _ => Ends.bind ends_addDual fun _ =>
        (hsib hz hw hzw).bind fun _ _ => Ends.ite (fun _ => ?_) fun _ => ?_)
      · exact Ends.bind ends_deactivate_holds fun _ => Ends.bind ends_addDual fun _ => ends_sawStar
      · exact Ends.bind (ends_cutOffLeaf_t1 hT hA hz) fun _ => Ends.bind (ends_cutOffLeaf_t2 hT hA hz) fun _ =>
          Ends.bind ends_deactivate fun _ => ends_addDual
    cases below with
    | true => exact hcut (Or.inl rfl) hx hy hxy
    | false => exact hcut (Or.inr rfl) hy hx hxy.symm
  · refine (finds_any fun _ _ => finds_origLca2InTreeOf hT (fun _ h => h) hx₂ hy₂).bind fun swap _ => ?_
    have hz : (if swap then y else x) = x ∨ (if swap then y else x) = y := by split_ifs <;> simp
    have hzA : (if swap then y else x) ∈ A := by split_ifs <;> assumption
    refine hend hz ((finds_any fun _ _ => finds_uTreeHasActiveOutsideU hT (fun _ h => h) (hA .t2 hzA) U).bind fun _ _ =>
      Ends.ite (fun _ => ?_) fun _ => ends_settle hT hA hzA)
    exact Ends.bind (ends_cutOffLeaf_t2 hT hA hzA) fun _ => Ends.bind (ends_settle hT hA hzA) fun _ => ends_sawStar

omit hT hA in
/-- `activeIn` lists the labels that are still active. -/
theorem finds_activeIn (S : List Label) : Finds (HoldsOff T A B) (activeIn S) (· = S.filter (· ∈ A)) :=
  Ends.get_bind fun s ⟨K, h, hK⟩ => Ends.pure fun _ h' => ⟨h' ▸ ⟨K, h, hK⟩, by rw [h.active]⟩

/-- `finalizeFirst` deactivates labels only. -/
theorem ends_finalizeFirst {S : List Label} (hS : ∀ x ∈ S, x ∈ A) :
    Ends (fun _ => False) (Holds T A) (finalizeFirst S) fun _ s => ∃ A' ⊆ A, Holds T A' s := by
  cases S with
  | nil => exact Ends.pure fun _ h => ⟨A, Finset.Subset.refl A, h⟩
  | cons x xs =>
      exact Ends.conseq (ends_finalize hT hA (hS x (List.mem_cons_self ..))) (fun _ h => h) fun _ _ h =>
        ⟨_, Finset.erase_subset x A, h⟩

end Cuts

/-! The loops over a set. -/

/-- The active ones of the labels `U` are those below a node of the first tree. -/
def Covers (T : Side → Tree) (A : Finset Label) (U : List Label) : Prop :=
  U.Nodup ∧ ∃ w ∈ Forest.subtrees [T .t1], ∀ x ∈ A, (x ∈ U ↔ x ∈ w.labels)

/-- Fewer active labels are covered as well. -/
theorem Covers.mono {A' : Finset Label} {U : List Label} (h : Covers T A U) (hsub : A' ⊆ A) : Covers T A' U :=
  ⟨h.1, h.2.imp fun _ hw => ⟨hw.1, fun x hx => hw.2 x (hsub hx)⟩⟩

/-- The number of active labels of a list. -/
def left (A : Finset Label) (U : List Label) : ℕ := (U.filter (· ∈ A)).length

/-- The number of labels left, as a cardinality. -/
theorem left_eq_card {U : List Label} (hU : U.Nodup) : left A U = (U.toFinset ∩ A).card := by
  rw [left, ← List.toFinset_card_of_nodup (hU.filter _)]
  congr 1
  ext x
  simp

/-- Deactivating a label of the list leaves one label less. -/
theorem left_erase {U : List Label} (hU : U.Nodup) {x : Label} (hx : x ∈ U) (hxA : x ∈ A) :
    left (A.erase x) U + 1 = left A U := by
  rw [left_eq_card hU, left_eq_card hU, Finset.inter_erase]
  exact Finset.card_erase_add_one (Finset.mem_inter.2 ⟨List.mem_toFinset.2 hx, hxA⟩)

/-- What is left of a list depends on its own labels only. -/
theorem left_congr {A' : Finset Label} {U : List Label} (h : ∀ x ∈ U, (x ∈ A' ↔ x ∈ A)) : left A' U = left A U := by
  rw [left, left, List.filter_congr fun x hx => decide_eq_decide.2 (h x hx)]

section Sets

variable (hT : ∀ v, WellFormed [T v])

include hT

/-- **Among the active labels below a node of the first tree there is a cherry.** -/
theorem finds_sibling {U : List Label} (hU : Covers T A U) (htwo : 2 ≤ left A U) :
    Finds (Holds T A) (activeSiblingPairIn U) fun r => (r.1 ∈ A ∧ r.2 ∈ A ∧ r.1 ≠ r.2) ∧ r.1 ∈ U ∧ r.2 ∈ U := by
  refine finds_holds fun K hK => (finds_activeSiblingPairIn hT U).imp fun r hr => ?_
  rcases hr with ⟨-, hnone⟩ | ⟨u, -, hne, hu, hmem⟩
  · exfalso
    obtain ⟨hnd, w, hw, hwU⟩ := hU
    have hcard : 2 ≤ (w.labels ∩ A).card := by
      rw [left_eq_card hnd] at htwo
      refine htwo.trans (Finset.card_le_card fun x hx => ?_)
      obtain ⟨hxU, hxA⟩ := Finset.mem_inter.1 hx
      exact Finset.mem_inter.2 ⟨(hwU x hxA).1 (List.mem_toFinset.1 hxU), hxA⟩
    obtain ⟨u, hu, hch⟩ := exists_cherry hK w hcard
    obtain ⟨x, y, -, huxy, hnot⟩ := hnone u (mem_subtrees_root.2 (Tree.subtrees_trans hu (mem_subtrees_root.1 hw)))
      trivial hch
    have hmem : ∀ z ∈ ({x, y} : Finset Label), z ∈ U := fun z hz => by
      rw [← huxy, hK.activeAt_eq, Finset.mem_inter] at hz
      exact (hwU z hz.2).2 (Tree.labels_subset_of_mem_subtrees hu hz.1)
    exact hnot ⟨hmem x (by simp), hmem y (by simp)⟩
  · have hact : ∀ z ∈ ({r.1, r.2} : Finset Label), z ∈ A := fun z hz => (mem_reached.1 (hu ▸ hz)).1
    exact ⟨⟨hact _ (by simp), hact _ (by simp), hne⟩, hmem⟩

/-- **The loop over a set** ends when fewer than `least` of its labels are active, and
takes them away one by one. -/
theorem ends_resolvePairs {least : ℕ} (hleast : 2 ≤ least) {U : List Label} : ∀ (fuel : ℕ) (A : Finset Label),
    Covers T A U → (∀ v, A ⊆ (T v).labels) → left A U < fuel →
    Ends (fun _ => False) (Holds T A) (resolvePairs least U fuel) fun _ s => ∃ A' ⊆ A, Holds T A' s ∧
      (∀ x ∈ A, x ∉ U → x ∈ A') ∧ left A' U = min (left A U) (least - 1) := by
  intro fuel
  induction fuel with
  | zero => exact fun A _ _ h => absurd h (Nat.not_lt_zero _)
  | succ fuel ih =>
      intro A hU hA hfuel
      refine (finds_activeIn U).bind fun S hS => Ends.ite (fun h => ?_) fun h => ?_
      · rw [hS] at h
        refine (finds_sibling hT hU (hleast.trans h)).bind fun r ⟨⟨ha, hb, hne⟩, haU, hbU⟩ => ?_
        have ha₀ : r.1 ≠ 0 := (hT .t1).label_ne _ (mem_forest_labels.2 (hA .t1 ha))
        dsimp only
        rw [if_neg ha₀]
        refine Ends.bind (ends_resolvePair hT hA ha hb hne U) fun _ => Ends.exists_pre fun z s ⟨hz, hs⟩ => ?_
        have hzA : z ∈ A := hz.elim (fun h => h ▸ ha) fun h => h ▸ hb
        have hzU : z ∈ U := hz.elim (fun h => h ▸ haU) fun h => h ▸ hbU
        have hcount := left_erase hU.1 hzU hzA
        have hsub := Finset.erase_subset z A
        refine Ends.conseq (ih (A.erase z) (hU.mono hsub) (fun v => hsub.trans (hA v)) (by omega)) (fun _ h => h)
          (fun _ _ h => ?_) s hs
        obtain ⟨A', hA', hs', hrest, hleft⟩ := h
        refine ⟨A', hA'.trans hsub, hs', fun x hx hxU => hrest x (Finset.mem_erase.2 ⟨fun h => hxU (h ▸ hzU), hx⟩)
          hxU, ?_⟩
        have hle : least ≤ left A U := h
        omega
      · rw [hS] at h
        have hlt : left A U < least := not_le.1 h
        exact Ends.pure fun _ h => ⟨A, Finset.Subset.refl A, h, fun _ hx _ => hx, by omega⟩

/-- The last two labels of the set: one of them is deactivated, or nothing is done. -/
theorem ends_resolveLast (hA : ∀ v, A ⊆ (T v).labels) {x y : Label} (hx : x ∈ A) (hy : y ∈ A) (hxy : x ≠ y)
    (R : List Label) :
    Ends (fun _ => False) (Holds T A) (resolveLast R x y) fun b s => ∃ A' ⊆ A, Holds T A' s ∧ (b = true → A' ≠ A) ∧
      (b = false → A' = A) := by
  have hx₂ := hA .t2 hx
  have hy₂ := hA .t2 hy
  have hne : ∀ {A' : Finset Label} {z : Label}, z ∈ A → A' ⊆ A.erase z → A' ≠ A := fun hz hsub he =>
    Finset.notMem_erase _ A (hsub (he ▸ hz))
  have hrest : ∀ same hasW : Bool, Ends (fun _ => False) (Holds T A) (do
      if !same || !hasW then
        finalize x
        finalize y
        pure true
      else if (← get).sawStar then
        resolvePair x y R
        finalizeFirst (← activeIn R)
        pure true
      else pure false) fun b s => ∃ A' ⊆ A, Holds T A' s ∧ (b = true → A' ≠ A) ∧ (b = false → A' = A) := by
    intro same hasW
    refine Ends.ite (fun _ => ?_) fun _ => Ends.get_bind fun s hs => Ends.conseq (P := Holds T A)
        (Ends.ite (fun _ => ?_) fun _ =>
      Ends.pure fun s h => ⟨A, Finset.Subset.refl A, h, fun h => (nomatch h), fun _ => rfl⟩) (fun _ h => h ▸ hs)
        fun _ _ h => h
    · have hyx : y ∈ A.erase x := Finset.mem_erase.2 ⟨hxy.symm, hy⟩
      refine Ends.bind (ends_finalize hT hA hx) fun _ => Ends.bind (ends_finalize hT
        (fun v => (Finset.erase_subset x A).trans (hA v)) hyx) fun _ => Ends.pure fun s h => ?_
      exact ⟨_, (Finset.erase_subset _ _).trans (Finset.erase_subset _ _), h, fun _ => hne hx (Finset.erase_subset _ _),
        fun h => nomatch h⟩
    · refine Ends.bind (ends_resolvePair hT hA hx hy hxy R) fun _ => Ends.exists_pre fun z s ⟨hz, hs⟩ => ?_
      have hzA : z ∈ A := hz.elim (fun h => h ▸ hx) fun h => h ▸ hy
      have hfirst := ends_finalizeFirst (S := R.filter (· ∈ A.erase z)) hT
        (fun v => (Finset.erase_subset z A).trans (hA v)) fun x hx => by simpa using (List.mem_filter.1 hx).2
      refine Ends.conseq (P := Holds T (A.erase z))
        ((finds_activeIn R).bind fun S hS => Ends.bind (hS ▸ hfirst) fun _ =>
        Ends.pure fun s h => ?_) (fun _ h => h) (fun _ _ h => h) s hs
      obtain ⟨A', hA', h⟩ := h
      exact ⟨A', hA'.trans (Finset.erase_subset z A), h, fun _ => hne hzA hA', fun h => nomatch h⟩
  refine (finds_any fun _ _ => finds_activeSiblings hT steady_at hx hy (hA .t2) hxy).bind
    fun sib _ => Ends.ite (fun _ => ?_) fun _ => ?_
  · refine Ends.bind ends_deactivate_holds fun _ => Ends.bind ends_addDual fun _ => Ends.pure fun s h => ?_
    exact ⟨_, Finset.erase_subset x A, h, fun _ => hne hx (Finset.Subset.refl _), fun h => nomatch h⟩
  · refine (finds_any fun _ _ => finds_sameTree hT (fun _ h => h) hx₂ hy₂).bind fun same _ =>
      Ends.ite (fun _ => ?_) fun _ =>
      Ends.bind (Ends.pure fun _ h => h) fun hasW => hrest same hasW
    have hroot : Finds (Holds T A) (rootOfLeaf .t2 x) fun r => ∃ u ∈ Forest.subtrees [T .t2], u.ptr = r :=
      finds_holds fun _ _ => (finds_rootOfLeaf hT (fun _ h => h) hx₂).imp fun r ⟨u, hu, hur, _⟩ => ⟨u, hu, hur⟩
    refine hroot.bind fun r ⟨u, hu, hur⟩ => ?_
    subst hur
    have hunder : Finds (Holds T A) (activeLabelsUnder .t2 u.ptr) fun S => ∀ w ∈ S, w ∈ (T .t2).labels :=
      finds_holds fun _ _ => (finds_activeLabelsUnder hT (fun _ h => h) hu).imp fun S hS w hw =>
        hA .t2 (mem_reached.1 ((hS.2 w).1 hw)).1
    exact hunder.bind fun under hunder =>
      (finds_any fun _ _ => finds_hasOutlier hT (fun _ h => h) hx₂ hy₂ hxy hunder).bind
      fun hasW _ => hrest same hasW

/-- **`resolveSet`**: it deactivates a label, or it fails and leaves two of the set. -/
theorem ends_resolveSet {R : List Label} (hR : Covers T A R) (hA : ∀ v, A ⊆ (T v).labels) (htwo : 2 ≤ left A R) :
    Ends (fun _ => False) (Holds T A) (resolveSet R) fun b s => ∃ A' ⊆ A, Holds T A' s ∧ (b = true → A' ≠ A) ∧
      (b = false → left A' R = 2 ∧ ∀ x ∈ A, x ∉ R → x ∈ A') := by
  have hle : left A R ≤ R.length := List.length_filter_le _ _
  refine Ends.bind ends_sawStar fun _ => Ends.bind ends_addDual fun _ =>
    Ends.bind (ends_resolvePairs hT (by decide) (R.length + 1) A hR hA (by omega)) fun _ => Ends.exists_pre
      fun A' s h => ?_
  obtain ⟨hsub, hs, hrest, hleft⟩ := h
  have htwo' : left A' R = 2 := by omega
  refine (finds_activeIn R).bind (fun S hS => ?_) s hs
  obtain ⟨x, y, hxy⟩ := List.length_eq_two.1 htwo'
  have hnd : (R.filter (· ∈ A')).Nodup := hR.1.filter _
  rw [hS, hxy]
  rw [hxy] at hnd
  have hmem : ∀ z ∈ [x, y], z ∈ A' := fun z hz => by
    rw [← hxy] at hz
    simpa using (List.mem_filter.1 hz).2
  have hne : x ≠ y := by simpa using hnd
  refine Ends.conseq (ends_resolveLast hT (fun v => hsub.trans (hA v)) (hmem x (by simp)) (hmem y (by simp)) hne R)
    (fun _ h => h) fun b s h => ?_
  obtain ⟨A'', hsub', hs', htrue, hfalse⟩ := h
  refine ⟨A'', hsub'.trans hsub, hs', fun h he => htrue h (hsub'.antisymm (he ▸ hsub)), fun h => ?_⟩
  rw [hfalse h]
  exact ⟨htwo', hrest⟩

end Sets

/-! The final procedures. -/

section Final

variable (hT : ∀ v, WellFormed [T v]) (hA : ∀ v, A ⊆ (T v).labels)

include hT hA

/-- Settling the first label of a few is progress. -/
theorem ends_proc4b {r1 r2 b : Label} (h1 : r1 ∈ A) (h2 : r2 ∈ A) (hb : b ∈ A) (h12 : r1 ≠ r2) (h1b : r1 ≠ b)
    (h2b : r2 ≠ b) :
    Ends (fun _ => False) (Holds T A) (proc4b r1 r2 b) fun _ s => ∃ A' ⊂ A, Holds T A' s := by
  have hsub := Finset.erase_subset b A
  have h1' : r1 ∈ A.erase b := Finset.mem_erase.2 ⟨h1b, h1⟩
  have h2' : r2 ∈ (A.erase b).erase r1 := Finset.mem_erase.2 ⟨h12.symm, Finset.mem_erase.2 ⟨h2b, h2⟩⟩
  refine Ends.bind (ends_cutOffLeaf_t2 hT hA hb) fun _ => Ends.bind (ends_settle hT hA hb) fun _ =>
    Ends.bind (ends_finalize hT (fun v => hsub.trans (hA v)) h1') fun _ =>
      Ends.conseq (ends_finalize hT (fun v => (Finset.erase_subset r1 _).trans (hsub.trans (hA v))) h2') (fun _ h => h)
        fun _ s h => ⟨_, ?_, h⟩
  exact ((Finset.erase_subset _ _).trans (Finset.erase_subset _ _)).trans_ssubset (Finset.erase_ssubset hb)

/-- `proc4a` deactivates a label. -/
theorem ends_proc4a {r1 r2 b : Label} (h1 : r1 ∈ A) (h2 : r2 ∈ A) (hb : b ∈ A) (h12 : r1 ≠ r2) (h1b : r1 ≠ b)
    (h2b : r2 ≠ b) :
    Ends (fun _ => False) (Holds T A) (proc4a r1 r2 b) fun _ s => ∃ A' ⊂ A, Holds T A' s := by
  -- what follows the cut, for the two labels in either order
  have hrest : ∀ r1 r2 : Label, r1 ∈ A → r2 ∈ A → r1 ≠ r2 → r1 ≠ b → r2 ≠ b → Ends (fun _ => False) (Holds T A) (do
      addDual (-1)
      cutOffLeaf .t2 r2
      settle r2
      if ← activeSiblings .t2 r1 b then
        deactivate b
        addDual 1
      else
        cutOffLeaf .t2 r1
        settle r1
        cutOffLeaf .t2 b
        settle b) fun _ s => ∃ A' ⊂ A, Holds T A' s := by
    intro r1 r2 h1 h2 h12 h1b h2b
    have hA' : ∀ v, A.erase r2 ⊆ (T v).labels := fun v => (Finset.erase_subset r2 A).trans (hA v)
    have h1' : r1 ∈ A.erase r2 := Finset.mem_erase.2 ⟨h12, h1⟩
    have hb' : b ∈ A.erase r2 := Finset.mem_erase.2 ⟨h2b.symm, hb⟩
    have hlt : ∀ {X : Finset Label}, X ⊆ A.erase r2 → X ⊂ A := fun h => h.trans_ssubset (Finset.erase_ssubset h2)
    refine Ends.bind ends_addDual fun _ => Ends.bind (ends_cutOffLeaf_t2 hT hA h2)
        fun _ => Ends.bind (ends_settle hT hA h2) fun _ =>
      (finds_any fun _ _ => finds_activeSiblings hT steady_at h1' hb' (hA' .t2) h1b).bind
        fun _ _ => Ends.ite (fun _ => ?_) fun _ => ?_
    · exact Ends.bind ends_deactivate_holds fun _ => Ends.conseq ends_addDual (fun _ h => h) fun _ _ h =>
        ⟨_, hlt (Finset.erase_subset _ _), h⟩
    · have hA'' : ∀ v, (A.erase r2).erase r1 ⊆ (T v).labels := fun v => (Finset.erase_subset r1 _).trans (hA' v)
      have hb'' : b ∈ (A.erase r2).erase r1 := Finset.mem_erase.2 ⟨h1b.symm, hb'⟩
      refine Ends.bind (ends_cutOffLeaf_t2 hT hA' h1') fun _ => Ends.bind (ends_settle hT hA' h1') fun _ =>
        Ends.bind (ends_cutOffLeaf_t2 hT hA'' hb'') fun _ =>
          Ends.conseq (ends_settle hT hA'' hb'') (fun _ h => h) fun _ _ h =>
          ⟨_, hlt ((Finset.erase_subset _ _).trans (Finset.erase_subset _ _)), h⟩
  refine (finds_any fun _ _ =>
    finds_restrictsO hT (fun _ h => h) (hA .t2 hb) (hA .t2 h1) (hA .t2 h2) h1b.symm h2b.symm h12).bind
    fun close _ => ?_
  obtain ⟨p, hp, hp1, hp2, hp12, hp1b, hp2b⟩ : ∃ p : Label × Label,
      (if close then (r1, r2) else (r2, r1)) = p ∧ p.1 ∈ A ∧ p.2 ∈ A ∧ p.1 ≠ p.2 ∧ p.1 ≠ b ∧ p.2 ≠ b := by
    cases close with
    | true => exact ⟨_, rfl, h1, h2, h12, h1b, h2b⟩
    | false => exact ⟨_, rfl, h2, h1, h12.symm, h2b, h1b⟩
  rw [hp]
  have hnode : Finds (Holds T A) (lcaLeaves .t2 p.1 b) fun r =>
      ∀ m, r = some m → ∃ u ∈ Forest.subtrees [T .t2], u.ptr = m :=
    finds_holds fun _ _ => (finds_lcaLeaves hT (fun _ h => h) (hA .t2 hp1) (hA .t2 hb)).imp fun r hr m hm =>
      (hr.2 m hm).imp fun u hu => ⟨hu.1, hu.2.1⟩
  refine hnode.bind fun m hm => ?_
  cases m with
  | none => exact hrest _ _ hp1 hp2 hp12 hp1b hp2b
  | some m =>
      obtain ⟨u, hu, rfl⟩ := hm m rfl
      refine Ends.get_bind fun s hs => Ends.conseq (P := Holds T A) (Ends.ite (fun _ => ?_) fun _ => ?_)
        (fun _ h => h ▸ hs)
        fun _ _ h => h
      · exact Ends.bind (ends_cutEdge_t2 hT hu) fun _ => hrest _ _ hp1 hp2 hp12 hp1b hp2b
      · exact hrest _ _ hp1 hp2 hp12 hp1b hp2b

omit hT hA in
/-- The search returns a label of the list, or `0`. -/
theorem finds_firstLabel {I : RedBlue2 → Prop} {test : Label → Run Bool} {xs : List Label}
    (htest : ∀ x ∈ xs, Finds I (test x) fun _ => True) : Finds I (firstLabel test xs) fun r => r = 0 ∨ r ∈ xs := by
  induction xs with
  | nil => exact Finds.pure (Or.inl rfl)
  | cons x xs ih =>
      refine (htest x (List.mem_cons_self ..)).bind fun b _ =>
        Ends.ite (fun _ => Finds.pure (Or.inr (List.mem_cons_self ..))) fun _ =>
        (ih fun y hy => htest y (List.mem_cons_of_mem _ hy)).imp fun r hr => hr.imp_right (List.mem_cons_of_mem _)

omit hT hA in
/-- The other two of three different labels. -/
theorem others_spec {r1 r2 b x : Label} (h12 : r1 ≠ r2) (h1b : r1 ≠ b) (h2b : r2 ≠ b) (hx : x ∈ [r1, r2, b]) :
    (others [r1, r2, b] x).1 ∈ [r1, r2, b] ∧ (others [r1, r2, b] x).2 ∈ [r1, r2, b] ∧
      (others [r1, r2, b] x).1 ≠ (others [r1, r2, b] x).2 ∧
      (others [r1, r2, b] x).1 ≠ x ∧ (others [r1, r2, b] x).2 ≠ x := by
  simp only [List.mem_cons, List.not_mem_nil, or_false] at hx
  rcases hx with rfl | rfl | rfl
  · simp [others, h12.symm, h1b.symm, h2b]
  · simp [others, h12, h2b.symm, h1b]
  · simp [others, h1b, h2b, h12]

/-- `proc4c` deactivates a label. -/
theorem ends_proc4c {r1 r2 b : Label} (h1 : r1 ∈ A) (h2 : r2 ∈ A) (hb : b ∈ A) (h12 : r1 ≠ r2) (h1b : r1 ≠ b)
    (h2b : r2 ≠ b) :
    Ends (fun _ => False) (Holds T A) (proc4c r1 r2 b) fun _ s => ∃ A' ⊂ A, Holds T A' s := by
  have htrip : ∀ x ∈ [r1, r2, b], x ∈ A := by simp [h1, h2, hb]
  have hothers := fun {x} => others_spec (x := x) h12 h1b h2b
  have hrest : ∀ u : Label, u = 0 ∨ u ∈ [r1, r2, b] → Ends (fun _ => False) (Holds T A) (do
      let uHat := if u = 0 then b else u
      let v := others [r1, r2, b] uHat
      finalize uHat
      if ← activeSiblings .t2 v.1 v.2 then
        deactivate (if v.2 = b then v.2 else v.1)
        addDual 1
      else
        resolvePair v.1 v.2 [v.1, v.2]
        finalizeFirst (← activeIn [v.1, v.2])) fun _ s => ∃ A' ⊂ A, Holds T A' s := by
    intro u hu
    have hmem : (if u = 0 then b else u) ∈ [r1, r2, b] := by
      split_ifs with h
      · simp
      · exact hu.resolve_left h
    dsimp only
    generalize (if u = 0 then b else u) = uHat at *
    obtain ⟨hv1, hv2, hne, hv1u, hv2u⟩ := hothers hmem
    generalize others [r1, r2, b] uHat = v at *
    have huA := htrip _ hmem
    have hA' : ∀ v, A.erase uHat ⊆ (T v).labels := fun v => (Finset.erase_subset _ A).trans (hA v)
    have hv1A : v.1 ∈ A.erase uHat := Finset.mem_erase.2 ⟨hv1u, htrip _ hv1⟩
    have hv2A : v.2 ∈ A.erase uHat := Finset.mem_erase.2 ⟨hv2u, htrip _ hv2⟩
    have hlt : ∀ {X : Finset Label}, X ⊆ A.erase uHat → X ⊂ A := fun h => h.trans_ssubset (Finset.erase_ssubset huA)
    refine Ends.bind (ends_finalize hT hA huA) fun _ =>
      (finds_any fun _ _ => finds_activeSiblings hT steady_at hv1A hv2A (hA' .t2) hne).bind
        fun _ _ => Ends.ite (fun _ => ?_) fun _ => ?_
    · exact Ends.bind ends_deactivate_holds fun _ => Ends.conseq ends_addDual (fun _ h => h) fun _ _ h =>
        ⟨_, hlt (Finset.erase_subset _ _), h⟩
    · refine Ends.bind (ends_resolvePair hT hA' hv1A hv2A hne _) fun _ => Ends.exists_pre fun z s ⟨_, hs⟩ => ?_
      have hsub := Finset.erase_subset z (A.erase uHat)
      have hfirst := ends_finalizeFirst (S := [v.1, v.2].filter (· ∈ (A.erase uHat).erase z)) hT
        (fun v => hsub.trans (hA' v)) fun x hx => by simpa using (List.mem_filter.1 hx).2
      refine Ends.conseq (P := Holds T ((A.erase uHat).erase z)) ((finds_activeIn _).bind fun S hS => hS ▸ hfirst)
        (fun _ h => h)
        (fun _ _ h => ?_) s hs
      obtain ⟨A', hsub', h⟩ := h
      exact ⟨A', hlt (hsub'.trans hsub), h⟩
  have hlabel : ∀ {x}, x ∈ [r1, r2, b] → x ∈ (T .t2).labels := fun hx => hA .t2 (htrip _ hx)
  have hapart : ∀ x ∈ [r1, r2, b], Finds (Holds T A) (apart [r1, r2, b] x) fun _ => True := fun x hx => by
    obtain ⟨hv1, hv2, -⟩ := hothers hx
    exact (finds_any fun _ _ => finds_sameTree hT (fun _ h => h) (hlabel hx) (hlabel hv1)).bind fun _ _ =>
      Ends.ite (fun _ => Finds.pure trivial) fun _ =>
        (finds_any fun _ _ => finds_sameTree hT (fun _ h => h) (hlabel hx) (hlabel hv2)).bind
          fun _ _ => Finds.pure trivial
  refine (finds_firstLabel hapart).bind fun u hu => Ends.ite (fun _ => ?_) fun _ => hrest u hu
  exact (finds_firstLabel fun x hx => finds_any fun _ _ => finds_aloneInTree hT steady_at (hlabel hx)).bind hrest

end Final

/-! Iterations. -/

section Run

variable (hT : ∀ v, WellFormed [T v])

include hT

/-- The loop over `B` leaves one label of it, and all other labels as they are. -/
theorem ends_resolveRest {R S : List Label} (hS : Covers T A S) (hRS : ∀ x ∈ R, x ∉ S) (hA : ∀ v, A ⊆ (T v).labels)
    (hR : left A R = 2) (hone : 1 ≤ left A S) :
    Ends (fun _ => False) (Holds T A) (resolvePairs 2 S (S.length + 1)) fun _ s => ∃ A' ⊆ A, Holds T A' s ∧
      left A' R = 2 ∧ left A' S = 1 := by
  have hle : left A S ≤ S.length := List.length_filter_le _ _
  refine Ends.conseq (ends_resolvePairs hT le_rfl (S.length + 1) A hS hA (by omega)) (fun _ h => h) fun _ s h => ?_
  obtain ⟨A', hsub, hs, hrest, hleft⟩ := h
  refine ⟨A', hsub, hs, ?_, by omega⟩
  rw [← hR]
  exact left_congr fun x hx => ⟨fun h => hsub h, fun h => hrest x h (hRS x hx)⟩

/-- **After a failed `resolveSet`** two labels of `R` and one of `B` are left for the final
procedures. -/
theorem ends_resolveTriplet {R S : List Label} (hS : Covers T A S) (hRnd : R.Nodup) (hRS : ∀ x ∈ R, x ∉ S)
    (hA : ∀ v, A ⊆ (T v).labels) (hR : left A R = 2) (hone : 1 ≤ left A S) :
    Ends (fun _ => False) (Holds T A) (resolveTriplet R S) fun o s => o = .triplet ∧ ∃ A' ⊂ A, Holds T A' s := by
  refine Ends.bind (ends_resolveRest hT hS hRS hA hR hone) fun _ => Ends.exists_pre fun A' s h => ?_
  obtain ⟨hsub, hs, htwo, hone⟩ := h
  have hA' : ∀ v, A' ⊆ (T v).labels := fun v => hsub.trans (hA v)
  refine (finds_activeIn R).bind (fun remR hremR => (finds_activeIn S).bind fun remB hremB => ?_) s hs
  obtain ⟨r1, r2, hr⟩ := List.length_eq_two.1 htwo
  obtain ⟨b, hb⟩ := List.length_eq_one_iff.1 hone
  have hmemR : ∀ x ∈ [r1, r2], x ∈ R ∧ x ∈ A' := fun x hx => by
    rw [← hr] at hx
    simpa using List.mem_filter.1 hx
  have hmemB : b ∈ S ∧ b ∈ A' := by
    have : b ∈ S.filter (· ∈ A') := by rw [hb]; exact List.mem_singleton_self b
    simpa using List.mem_filter.1 this
  have hnd : r1 ≠ r2 := by
    have := hRnd.filter (· ∈ A')
    rw [hr] at this
    simpa using this
  obtain ⟨h1R, h1⟩ := hmemR r1 (by simp)
  obtain ⟨h2R, h2⟩ := hmemR r2 (by simp)
  have h1b : r1 ≠ b := fun h => hRS r1 h1R (h ▸ hmemB.1)
  have h2b : r2 ≠ b := fun h => hRS r2 h2R (h ▸ hmemB.1)
  rw [hremR, hr, hremB, hb]
  have hroot : ∀ {x}, x ∈ A' → Finds (Holds T A') (rootOfLeaf .t2 x) fun _ => True := fun hx =>
    finds_any fun _ _ => finds_rootOfLeaf hT (fun _ h => h) (hA' .t2 hx)
  have hend : ∀ {f : Run Unit}, Ends (fun _ => False) (Holds T A') f (fun _ s => ∃ A'' ⊂ A', Holds T A'' s) →
      Ends (fun _ => False) (Holds T A') (do f; pure Outcome.triplet)
        fun o s => o = .triplet ∧ ∃ A' ⊂ A, Holds T A' s :=
    fun hf => Ends.bind hf fun _ => Ends.pure fun s ⟨A'', hlt, h⟩ => ⟨rfl, A'', hlt.trans_subset hsub, h⟩
  refine (hroot h1).bind fun _ _ => (hroot h2).bind fun _ _ => (hroot hmemB.2).bind fun _ _ =>
    Ends.ite (fun _ => ?_) fun _ =>
    Ends.ite (fun _ => ?_) fun _ => ?_
  · exact hend (ends_proc4a hT hA' h1 h2 hmemB.2 hnd h1b h2b)
  · exact hend (ends_proc4b hT hA' h1 h2 hmemB.2 hnd h1b h2b)
  · exact hend (ends_proc4c hT hA' h1 h2 hmemB.2 hnd h1b h2b)

/-- **`preprocess` ends**, and not with two active labels. -/
theorem ends_preprocess : ∀ (fuel : ℕ) (A : Finset Label), (∀ v, A ⊆ (T v).labels) → A.card < fuel →
    Ends (fun _ => False) (Holds T A) (preprocess fuel) fun _ s => ∃ A' ⊆ A, Holds T A' s ∧ A'.card ≠ 2 := by
  intro fuel
  induction fuel with
  | zero => exact fun A _ h => absurd h (Nat.not_lt_zero _)
  | succ fuel ih =>
      intro A hA hfuel
      have hnext : ∀ {x}, x ∈ A → Ends (fun _ => False) (Holds T (A.erase x)) (preprocess fuel) fun _ s =>
          ∃ A' ⊆ A, Holds T A' s ∧ A'.card ≠ 2 := fun {x} hx =>
        Ends.conseq (ih (A.erase x) (fun v => (Finset.erase_subset x A).trans (hA v)) (by
          have := Finset.card_erase_add_one hx
          omega)) (fun _ h => h) fun _ _ ⟨A', hsub, h⟩ => ⟨A', hsub.trans (Finset.erase_subset x A), h⟩
      have hne : ∀ {x}, x ∈ A → x ≠ 0 := fun hx => (hT .t1).label_ne _ (mem_forest_labels.2 (hA .t1 hx))
      refine Ends.exists_pre fun K => Ends.and_pre fun hK => (finds_findBothForestCherry hT (hA .t2)).bind fun r hr =>
        Ends.ite (fun hr₀ => ?_) fun hr₀ => (finds_findT2Alone hT).bind fun w hw =>
          Ends.ite (fun hw₀ => ?_) fun hw₀ => ?_
      · rcases hr with ⟨rfl, -⟩ | ⟨u, -, -, hu, -⟩
        · exact absurd rfl hr₀
        · have hmem : r.1 ∈ A := (mem_reached.1 (show r.1 ∈ activeAt T K A .t1 u by rw [hu]; simp)).1
          exact Ends.conseq (Ends.bind ends_deactivate_holds fun _ => hnext hmem) (fun s h => ⟨K, h, hK⟩) fun _ _ h => h
      · have hmem : w ∈ A := hw.resolve_right fun h => hw₀ h.1
        exact Ends.conseq (Ends.bind (ends_settle hT hA hmem) fun _ => hnext hmem) (fun s h => ⟨K, h, hK⟩)
          fun _ _ h => h
      · refine Ends.pure fun s h => ⟨A, Finset.Subset.refl A, ⟨K, h, hK⟩, card_ne_two hT h hK ?_ ?_⟩
        · rcases hr with ⟨-, hr⟩ | ⟨u, -, -, hu, -⟩
          · exact fun u hu => hr u hu trivial
          · exact absurd (not_not.1 hr₀) (hne (mem_reached.1 (show r.1 ∈ activeAt T K A .t1 u by rw [hu]; simp)).1)
        · rcases hw with hw | hw
          · exact absurd (not_not.1 hw₀) (hne hw)
          · exact hw.2

omit hT in
/-- The rounds are bounded by the number of active labels. -/
theorem finds_rounds : Finds (Holds T A) rounds (· = A.card + 1) :=
  Ends.get_bind fun s ⟨K, h, hK⟩ => Ends.pure fun _ h' => ⟨h' ▸ ⟨K, h, hK⟩, by rw [h.active]⟩

variable (hl : (T .t1).labels = (T .t2).labels) {checkCompat : Bool} (hfits : FitsKeys checkCompat (T .t1).labels)
  {order : Finset Label → List Label} (horder : ∀ X, Lists (order X) X)

omit hT in
/-- Both sides of a split cover the active labels below them. -/
theorem IsSplit.covers {R S : List Label} (h : IsSplit T A R S) :
    Covers T A R ∧ Covers T A S ∧ (∀ x ∈ R, x ∉ S) ∧ 2 ≤ left A R ∧ 1 ≤ left A S := by
  obtain ⟨w, hw, w', hw', hdis, hR, hS, htwo, hne⟩ := h
  have hcover : ∀ {U : List Label} {u : Tree}, u ∈ Forest.subtrees [T .t1] → Lists U (u.labels ∩ A) → Covers T A U :=
    fun {U u} hu hU => ⟨hU.1, u, hu, fun x hx => by rw [hU.2, Finset.mem_inter]; exact and_iff_left hx⟩
  have hleft : ∀ {U : List Label} {u : Tree}, Lists U (u.labels ∩ A) → left A U = U.length := fun {U u} hU => by
    rw [left, List.filter_eq_self.2 fun x hx => decide_eq_true (Finset.mem_inter.1 ((hU.2 x).1 hx)).2]
  refine ⟨hcover hw hR, hcover hw' hS, fun x hx hx' => ?_, by rwa [hleft hR], ?_⟩
  · exact Finset.disjoint_left.1 hdis (Finset.mem_inter.1 ((hR.2 x).1 hx)).1 (Finset.mem_inter.1 ((hS.2 x).1 hx')).1
  · rw [hleft hS]
    exact List.length_pos_iff.2 hne

include hl hfits horder

/-- **An iteration deactivates a leaf**, and is never the degenerate one. -/
theorem ends_iteration_progress (hA : ∀ v, A ⊆ (T v).labels) (hpos : A.Nonempty) (htwo : A.card ≠ 2) :
    Ends (fun _ => False) (Holds T A) (iteration checkCompat order) fun o s => o ≠ .degenerate ∧
      (o.isFinal = true → s.active = ∅) ∧ (o.isFinal = false → ∃ A' ⊂ A, Holds T A' s ∧ A'.card ≠ 2) := by
  have hend : ∀ {o : Outcome} {P : RedBlue2 → Prop}, o.isFinal = true → o ≠ .degenerate → Ends (fun _ => False) P (do
        modify fun s => { s with active := ∅ }
        pure o : Run Outcome) fun o s => o ≠ .degenerate ∧ (o.isFinal = true → s.active = ∅) ∧
          (o.isFinal = false → ∃ A' ⊂ A, Holds T A' s ∧ A'.card ≠ 2) := fun hfinal hne _ _ =>
    ⟨hne, fun _ => rfl, fun h => absurd (hfinal.symm.trans h) Bool.noConfusion⟩
  refine Ends.get_bind fun s hs => ?_
  obtain ⟨K, hat, hK⟩ := hs
  rw [hat.active]
  refine Ends.ite (fun _ => hend rfl nofun) fun hone => Ends.conseq (P := Holds T A) ?_ (fun _ h => h ▸ ⟨K, hat, hK⟩)
    fun _ _ h => h
  have hthree : 3 ≤ A.card := by
    have := hpos.card_pos
    omega
  have hfind : Finds (Holds T A) (findMinIncompat checkCompat order) fun r =>
      ∃ R S, r = some (R, S) ∧ IsSplit T A R S :=
    finds_holds fun K hK => finds_findMinIncompat hT (fun _ h => h) hK hA hl hfits horder hthree
  refine hfind.bind ?_
  rintro r ⟨R, S, rfl, hsplit⟩
  obtain ⟨hR, hS, hRS, htwoR, honeS⟩ := hsplit.covers
  -- what `preprocess` makes of a state with fewer active labels
  have hpre : ∀ {o : Outcome} {A' : Finset Label}, A' ⊂ A → o.isFinal = false → o ≠ .degenerate →
      Ends (fun _ => False) (Holds T A') (do preprocess (← rounds); pure o) fun o s => o ≠ .degenerate ∧
        (o.isFinal = true → s.active = ∅) ∧ (o.isFinal = false → ∃ A' ⊂ A, Holds T A' s ∧ A'.card ≠ 2) := by
    intro o A' hlt hfinal hne
    refine finds_rounds.bind fun n hn =>
      Ends.bind (ends_preprocess hT n A' (fun v => hlt.subset.trans (hA v)) (by omega))
      fun _ => Ends.pure fun s h => ?_
    obtain ⟨A'', hsub, hs, hcard⟩ := h
    exact ⟨hne, fun h => absurd (hfinal.symm.trans h) Bool.noConfusion,
      fun _ => ⟨A'', hsub.trans_ssubset hlt, hs, hcard⟩⟩
  refine Ends.bind (ends_resolveSet hT hR hA htwoR) fun b => Ends.exists_pre fun A' =>
    Ends.ite (fun hb s h => ?_) fun hb s h => ?_
  · obtain ⟨hsub, hs, htrue, -⟩ := h
    exact hpre (o := .success) (hsub.ssubset_of_ne (htrue hb)) rfl (by decide) s hs
  · obtain ⟨hsub, hs, -, hfalse⟩ := h
    obtain ⟨hleft, hrest⟩ := hfalse (Bool.eq_false_iff.2 hb)
    have honeS' : 1 ≤ left A' S := by
      rw [left_congr fun x hx => ⟨fun h => hsub h, fun h => hrest x h fun hxR => hRS x hxR hx⟩]
      exact honeS
    have htriplet := ends_resolveTriplet hT (hS.mono hsub) hR.1 hRS (fun v => hsub.trans (hA v)) hleft honeS'
    refine Ends.bind htriplet (fun o s h => ?_) s hs
    obtain ⟨rfl, A'', hlt, hs⟩ := h
    exact hpre (o := .triplet) (hlt.trans_subset hsub) rfl (by decide) s hs

/-- **The main loop** takes as many iterations as there are active labels, at most, and
deactivates them all when the guard allows. -/
theorem ends_mainLoop_progress : ∀ (guard : ℕ) (A : Finset Label), (∀ v, A ⊆ (T v).labels) → A.card ≠ 2 →
    Ends (fun _ => False) (Holds T A) (mainLoop checkCompat order guard) fun os s => os.length ≤ A.card ∧
      Outcome.degenerate ∉ os ∧ (A.card ≤ guard → s.active = ∅) := by
  intro guard
  induction guard with
  | zero =>
      refine fun A _ _ => Ends.pure fun s ⟨K, h, _⟩ => ⟨Nat.zero_le _, List.not_mem_nil, fun hle => ?_⟩
      rw [h.active]
      exact Finset.card_eq_zero.1 (by omega)
  | succ guard ih =>
      intro A hA htwo
      refine Ends.get_bind fun s hs => ?_
      obtain ⟨K, hat, hK⟩ := hs
      rw [hat.active]
      refine Ends.ite (fun hempty => Ends.pure fun s' h => ?_) fun hne => Ends.conseq (P := Holds T A) ?_
        (fun _ h => h ▸ ⟨K, hat, hK⟩) fun _ _ h => h
      · exact ⟨Nat.zero_le _, List.not_mem_nil, fun _ => by rw [h, hat.active, hempty]⟩
      · have hpos := Finset.nonempty_iff_ne_empty.2 hne
        refine Ends.bind (ends_iteration_progress hT hl hfits horder hA hpos htwo) fun o => ?_
        refine Ends.ite (fun hfinal => Ends.pure fun s h => ?_) fun hfinal => ?_
        · have := hpos.card_pos
          exact ⟨by rw [List.length_singleton]; omega, by simpa using h.1.symm, fun _ => h.2.1 hfinal⟩
        · rintro s ⟨hdeg, -, hnext⟩
          obtain ⟨A', hlt, hs, htwo'⟩ := hnext (Bool.eq_false_iff.2 hfinal)
          have hcard := Finset.card_lt_card hlt
          refine Ends.bind (ih A' (fun v => hlt.subset.trans (hA v)) htwo') (fun os => Ends.pure fun s h => ?_) s hs
          obtain ⟨hlen, hmem, hact⟩ := h
          refine ⟨by rw [List.length_cons]; omega, ?_, fun hle => hact (by omega)⟩
          simp only [List.mem_cons, not_or]
          exact ⟨hdeg.symm, hmem⟩

end Run

/-! The whole pass. -/

/-- The two trees, by side. -/
def trees (T₁ T₂ : Tree) : Side → Tree
  | .t1 => T₁
  | .t2 => T₂

/-- At the start nothing is cut and all labels are active. -/
theorem holds_init {T₁ T₂ : Tree} (hl : T₁.labels = T₂.labels) : Holds (trees T₁ T₂) T₁.labels (init [T₁] [T₂]) := by
  refine ⟨fun _ => ∅, ⟨fun v => ?_, by simp [init, Forest.labels], fun v => ?_, rfl, rfl, nofun⟩, ?_⟩
  · cases v <;> exact cutAt_ofForest _
  · cases v
    · exact Finset.Subset.refl _
    · exact hl.subset
  · simp [Clear, cutClusters]

/-- The states at the head of the main loop. -/
inductive AtHead (checkCompat : Bool) (order : Finset Label → List Label) (T₁ T₂ : Tree) : RedBlue2 → Prop
  | start {s : RedBlue2} : (do preprocess (← rounds) : Run Unit) (init [T₁] [T₂]) = .ok ((), s) →
      AtHead checkCompat order T₁ T₂ s
  | next {s s' : RedBlue2} {o : Outcome} : AtHead checkCompat order T₁ T₂ s → s.active ≠ ∅ →
      iteration checkCompat order s = .ok (o, s') → o.isFinal = false → AtHead checkCompat order T₁ T₂ s'

section MainLoop

variable {T₁ T₂ : Tree} (hT₁ : WellFormed [T₁]) (hT₂ : WellFormed [T₂]) (hl : T₁.labels = T₂.labels)
    {checkCompat : Bool}
  (hfits : FitsKeys checkCompat T₁.labels) {order : Finset Label → List Label} (horder : ∀ X, Lists (order X) X)

include hT₁ hT₂

/-- Both trees are well formed. -/
theorem wellFormed_trees (v : Side) : WellFormed [trees T₁ T₂ v] := by cases v <;> assumption

include hl hfits horder

/-- **At the head of the main loop** the cuts of the first tree lie off the active labels,
and these are not two. -/
theorem AtHead.holds (h : AtHead checkCompat order T₁ T₂ s) :
    Holds (trees T₁ T₂) s.active s ∧ s.active.card ≠ 2 ∧ ∀ v, s.active ⊆ (trees T₁ T₂ v).labels := by
  have hT := wellFormed_trees hT₁ hT₂
  have hset : ∀ {A s}, Holds (trees T₁ T₂) A s → A.card ≠ 2 → Holds (trees T₁ T₂) s.active s ∧ s.active.card ≠ 2 ∧
      ∀ v, s.active ⊆ (trees T₁ T₂ v).labels := by
    rintro A s ⟨K, hs, hK⟩ htwo
    rw [hs.active]
    exact ⟨⟨K, hs, hK⟩, htwo, hs.subset⟩
  induction h with
  | start hrun =>
      have hA : ∀ v, T₁.labels ⊆ (trees T₁ T₂ v).labels := fun v => by
        cases v
        · exact Finset.Subset.refl _
        · exact hl.subset
      obtain ⟨A, -, hs, htwo⟩ :=
        (finds_rounds.bind fun n hn => ends_preprocess hT n _ hA (by omega)).ok (holds_init hl) hrun
      exact hset hs htwo
  | next _ hne hrun hfinal ih =>
      obtain ⟨hs, htwo, hA⟩ := ih
      obtain ⟨-, -, hnext⟩ :=
        (ends_iteration_progress hT hl hfits horder hA (Finset.nonempty_iff_ne_empty.2 hne) htwo).ok hs hrun
      obtain ⟨A', -, hs', htwo'⟩ := hnext hfinal
      exact hset hs' htwo'

/-- **The pass makes progress and ends.**  Over two trees with the same labels it throws
nothing: every loop ends within its rounds, no walk follows a missing child and no access
fails.  It takes at most as many iterations as there are labels, none of them degenerate,
and below the guard it ends with no label active.  In every state at the head of the main
loop the next iteration deactivates a label; with two labels active, `findMinIncompat`
finds a set `R` with two active labels, and when `resolveSet` fails on it, two labels of
`R` and, after the loop over `B`, one label of `B` are left. -/
theorem run_progress :
    (∃ bound outcomes s, run checkCompat order (init [T₁] [T₂]) = .ok ((bound, outcomes), s) ∧
      outcomes.length ≤ T₁.labels.card ∧ Outcome.degenerate ∉ outcomes ∧ (T₁.labels.card ≤ 2000000 → s.active = ∅)) ∧
    ∀ s, AtHead checkCompat order T₁ T₂ s → s.active ≠ ∅ →
      (∃ o s', iteration checkCompat order s = .ok (o, s') ∧ o ≠ .degenerate ∧ s'.active ⊂ s.active) ∧
      (2 ≤ s.active.card → ∃ R B, findMinIncompat checkCompat order s = .ok (some (R, B), s) ∧ 2 ≤ left s.active R ∧
        ∃ b s₁, resolveSet R s = .ok (b, s₁) ∧ (b = false → ∃ s₂, resolvePairs 2 B (B.length + 1) s₁ = .ok ((), s₂) ∧
          left s₂.active R = 2 ∧ left s₂.active B = 1)) := by
  have hT := wellFormed_trees hT₁ hT₂
  have hactive : ∀ {A s}, Holds (trees T₁ T₂) A s → s.active = A := fun ⟨_, h, _⟩ => h.active
  refine ⟨?_, fun s hs hne => ?_⟩
  · have hA : ∀ v, T₁.labels ⊆ (trees T₁ T₂ v).labels := fun v => by
      cases v
      · exact Finset.Subset.refl _
      · exact hl.subset
    have hrun : Ends (fun _ => False) (Holds (trees T₁ T₂) T₁.labels) (run checkCompat order) fun r s =>
        r.2.length ≤ T₁.labels.card ∧ Outcome.degenerate ∉ r.2 ∧ (T₁.labels.card ≤ 2000000 → s.active = ∅) := by
      refine finds_rounds.bind fun n hn =>
        Ends.bind (ends_preprocess hT n _ hA (by omega)) fun _ => Ends.exists_pre fun A s h => ?_
      obtain ⟨hsub, hs, htwo⟩ := h
      have hcard := Finset.card_le_card hsub
      refine Ends.bind (ends_mainLoop_progress hT hl hfits horder 2000000 A (fun v => hsub.trans (hA v)) htwo)
        (fun os => Ends.get_bind fun s h => Ends.pure fun s' h' => ?_) s hs
      subst h'
      exact ⟨h.1.trans hcard, h.2.1, fun hle => h.2.2 (hcard.trans hle)⟩
    obtain ⟨r, s, hok, hr⟩ := hrun.exists_ok (holds_init hl)
    exact ⟨r.1, r.2, s, hok, hr⟩
  · obtain ⟨hholds, htwo, hA⟩ := hs.holds hT₁ hT₂ hl hfits horder
    have hpos := Finset.nonempty_iff_ne_empty.2 hne
    constructor
    · obtain ⟨o, s', hok, hdeg, hfinal, hnext⟩ :=
        (ends_iteration_progress hT hl hfits horder hA hpos htwo).exists_ok hholds
      refine ⟨o, s', hok, hdeg, ?_⟩
      cases ho : o.isFinal with
      | true =>
          rw [hfinal ho]
          exact Finset.empty_ssubset.2 hpos
      | false =>
          obtain ⟨A', hlt, hs', -⟩ := hnext ho
          rwa [hactive hs']
    · intro hle
      have hthree : 3 ≤ s.active.card := by omega
      obtain ⟨K, hat, hK⟩ := hholds
      have hfind : Finds (· = s) (findMinIncompat checkCompat order) fun r => ∃ R S, r = some (R, S) ∧
          IsSplit (trees T₁ T₂) s.active R S :=
        finds_findMinIncompat hT (fun s' h => by rw [h]; exact hat) hK hA hl hfits horder hthree
      obtain ⟨r, s', hok, hs', R, S, rfl, hsplit⟩ := hfind.exists_ok rfl
      rw [hs'] at hok
      obtain ⟨hR, hS, hRS, htwoR, honeS⟩ := hsplit.covers
      obtain ⟨b, s₁, hset, A', hsub, hs₁, -, hfalse⟩ := (ends_resolveSet hT hR hA htwoR).exists_ok ⟨K, hat, hK⟩
      refine ⟨R, S, hok, htwoR, b, s₁, hset, fun hb => ?_⟩
      obtain ⟨hleft, hrest⟩ := hfalse hb
      have honeS' : 1 ≤ left A' S := by
        rw [left_congr fun x hx => ⟨fun h => hsub h, fun h => hrest x h fun hxR => hRS x hxR hx⟩]
        exact honeS
      obtain ⟨⟨⟩, s₂, hloop, A'', -, hs₂, htwo', hone'⟩ := (ends_resolveRest hT (hS.mono hsub) hRS
        (fun v => hsub.trans (hA v)) hleft honeS').exists_ok hs₁
      exact ⟨s₂, hloop, by rw [hactive hs₂]; exact ⟨htwo', hone'⟩⟩

end MainLoop

/-- Two trees with different cherries, enumerated in order. -/
theorem run_progress_threeLeaves : ∃ bound outcomes s,
    run false (fun X => X.sort (· ≤ ·)) (init [threeLeaves.1] [threeLeaves.2]) = .ok ((bound, outcomes), s) ∧
      outcomes.length ≤ 3 ∧ Outcome.degenerate ∉ outcomes ∧ s.active = ∅ := by
  have hcard : threeLeaves.1.labels.card = 3 := by decide
  have horder : ∀ X : Finset Label, Lists (X.sort (· ≤ ·)) X := fun X => ⟨X.sort_nodup _, fun x => X.mem_sort _⟩
  have hfits : FitsKeys false threeLeaves.1.labels := fun h => nomatch h
  obtain ⟨bound, outcomes, s, hrun, hlen, hdeg, hact⟩ :=
    (run_progress wellFormed_threeLeaves.1 wellFormed_threeLeaves.2 (by decide) hfits horder).1
  exact ⟨bound, outcomes, s, hrun, hcard ▸ hlen, hdeg, hact (by rw [hcard]; decide)⟩

end RedBlue2
end Approx
end Maf
