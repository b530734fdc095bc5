/-
# No count is read when it is out of date

The counts of the working views in `src/Solver/Approximation/RedBlueDual.cpp` are
refreshed lazily: `deactivate` and `cutEdge` set one flag for both views, and
`ensureCounts` sweeps both when it is set.  Whatever is done before, unset means that
the counts of both views are those of the current active leaves in the current forests
(`Reachable.fresh`), and every predicate, scan and procedure of the pass asks before it
reads (`counts_fresh`).

What a sweep leaves is the number of active leaves below every node after any cuts, on
arrays that mirror the links (`mirrors_links`, `card_below`).
-/

import Maf.Approx.RedBlueDual

namespace Maf
namespace Approx

open ParentWalk (Anc)
open MutableForestView (CutAt cutAt_ofForest cutClusters reached)
open ExceptState (Ends)

/-! One view. -/

namespace MutableForestView

/-- The index arrays of a view say what the links of its nodes say. -/
structure MirrorsLinks (v : MutableForestView) : Prop where
  parentIdx : ∀ i, v.parentIdx i = (v.nodes[i]?.bind v.parent).map v.indexOf
  leftIdx : ∀ i, v.leftIdx i = (v.nodes[i]?.bind v.leftChild).map v.indexOf
  rightIdx : ∀ i, v.rightIdx i = (v.nodes[i]?.bind v.rightChild).map v.indexOf

/-- The active labels whose leaves lie below a node in the current forest. -/
def below (v : MutableForestView) (active : Finset Label) (n : Ptr) : Set Label :=
  {x | x ∈ active ∧ ∃ p, v.nodeOf x = some p ∧ Anc v.parent p n}

variable {F : Forest} {K : Finset Ptr} {v : MutableForestView}

/-- Cutting above anything keeps a view cut. -/
theorem CutAt.exists_cut (hF : WellFormed F) (h : CutAt F K v) (n : Ptr) : ∃ K, CutAt F K (v.cut n) := by
  by_cases hn : n ∈ (ofForest F).nodes
  · exact ⟨_, h.cut hF hn⟩
  · have hnone : v.parent n = none := by
      cases hp : v.parent n with
      | none => rfl
      | some q => exact absurd (h.nodes ▸ (h.parent_mem hF hp).1) hn
    refine ⟨K, ?_⟩
    rw [MutableForestView.cut, hnone]
    exact h

/-- Any cuts. -/
theorem exists_cutAt_foldl (hF : WellFormed F) (ns : List Ptr) : ∃ K, CutAt F K (ns.foldl cut (ofForest F)) := by
  have key : ∀ (ns : List Ptr) (v : MutableForestView), (∃ K, CutAt F K v) → ∃ K, CutAt F K (ns.foldl cut v) := by
    intro ns
    induction ns with
    | nil => exact fun v h => h
    | cons n ns ih =>
        rintro v ⟨K, h⟩
        exact ih _ (h.exists_cut hF n)
  exact key ns _ ⟨∅, cutAt_ofForest F⟩

/-- The arrays of a view mirror its links. -/
theorem CutAt.mirrorsLinks (h : CutAt F K v) : v.MirrorsLinks := ⟨h.parentIdx, h.leftIdx, h.rightIdx⟩

/-- **`refreshCounts` counts the active leaves below a node.** -/
theorem CutAt.card_below (hF : WellFormed F) (h : CutAt F K v) (active : Finset Label) {n : Ptr} (hn : n ∈ v.nodes) :
    (v.refreshCounts active).count n = (v.below active n).ncard := by
  rw [h.nodes] at hn
  obtain ⟨s, hs, rfl⟩ := mem_nodes.1 hn
  rw [h.count_eq hF hs, ← Set.ncard_coe_finset]
  congr 1
  ext x
  simp only [reached, Finset.coe_filter, Set.mem_ofPred_eq, below]
  refine and_congr_right fun _ => ⟨fun ⟨hx, hK⟩ => ?_, fun ⟨p, hp, hanc⟩ => ?_⟩
  · have hxF : x ∈ F.labels := by
      obtain ⟨t, ht, hst⟩ := Forest.mem_subtrees.1 hs
      exact Forest.mem_labels.2 ⟨t, ht, Tree.labels_subset_of_mem_subtrees hst hx⟩
    obtain ⟨p, m, hleaf⟩ := Forest.exists_leaf hxF
    refine ⟨p, (h.nodeOf_eq hF).2 ⟨m, hleaf⟩, (h.anc_iff hF hleaf hs).2 ?_⟩
    simpa only [Tree.labels, Finset.singleton_subset_iff] using ⟨hx, hK⟩
  · obtain ⟨m, hleaf⟩ := (h.nodeOf_eq hF).1 hp
    simpa only [Tree.labels, Finset.singleton_subset_iff] using (h.anc_iff hF hleaf hs).1 hanc

/-- Refreshed counts are the numbers of active labels below. -/
theorem CutAt.counts_below (hF : WellFormed F) (h : CutAt F K v) (active : Finset Label) {i : ℕ} {n : Ptr}
    (hn : v.nodes[i]? = some n) : (v.refreshCounts active).counts i = (v.below active n).ncard := by
  have hmem := List.mem_of_getElem? hn
  rw [← h.card_below hF active hmem, count, (getElem?_indexOf (h.nodes ▸ nodup_nodes hF) hmem).1 hn]
  rfl

end MutableForestView

/-! The pass. -/

namespace RedBlue2

/-- **What a pass over two forests can be turned into** by `deactivate`, `cutEdge` and
count queries, in any order; the sum and the flag `sawStar` may have any values. -/
inductive Reachable (f1 f2 : Forest) : RedBlue2 → Prop
  | init : Reachable f1 f2 (init f1 f2)
  | deactivate {s : RedBlue2} (u : Label) : Reachable f1 f2 s →
      Reachable f1 f2 { s with active := s.active.erase u, countsDirty := true }
  | cutEdge {s : RedBlue2} (v : Side) (n : Ptr) : Reachable f1 f2 s →
      Reachable f1 f2 { s.setView ((s.view v).cut n) v with countsDirty := true }
  | ensureCounts {s : RedBlue2} : Reachable f1 f2 s →
      Reachable f1 f2 { s with
        t1 := s.t1.refreshCounts s.active, t2 := s.t2.refreshCounts s.active,
        countsDirty := false }
  | credit {s : RedBlue2} (d : ℤ) (b : Bool) : Reachable f1 f2 s → Reachable f1 f2 { s with dualSum := d, sawStar := b }

variable {f1 f2 : Forest} {s : RedBlue2}

/-- The counts of a view are those of a sweep over the current forest for the current
active labels. -/
def Fresh (s : RedBlue2) (v : Side) : Prop := ∀ i, (s.view v).counts i = ((s.view v).refreshCounts s.active).counts i

/-- **The flag is set whenever a count may be out of date.** -/
theorem Reachable.fresh (h : Reachable f1 f2 s) (hclean : s.countsDirty = false) (v : Side) : s.Fresh v := by
  induction h with
  | init => cases hclean
  | deactivate => cases hclean
  | cutEdge => cases hclean
  | ensureCounts => cases v <;> exact fun i => rfl
  | credit d b _ ih =>
      have := ih hclean
      cases v <;> exact this

/-- The input forest of a side. -/
def input (f1 f2 : Forest) : Side → Forest
  | .t1 => f1
  | .t2 => f2

/-- A reachable view is the view of its input forest after some cuts. -/
theorem Reachable.exists_cutAt (hf1 : WellFormed f1) (hf2 : WellFormed f2) (h : Reachable f1 f2 s) (v : Side) :
    ∃ K, CutAt (input f1 f2 v) K (s.view v) := by
  induction h with
  | init => cases v <;> exact ⟨∅, cutAt_ofForest _⟩
  | deactivate u _ ih => cases v <;> exact ih
  | @cutEdge s w n _ ih =>
      obtain ⟨K, ih⟩ := ih
      cases v <;> cases w
      · exact ih.exists_cut hf1 n
      · exact ⟨K, ih⟩
      · exact ⟨K, ih⟩
      · exact ih.exists_cut hf2 n
  | ensureCounts _ ih =>
      obtain ⟨K, ih⟩ := ih
      cases v
      · exact ⟨K, ih.refreshCounts _⟩
      · exact ⟨K, ih.refreshCounts _⟩
  | credit d b _ ih => cases v <;> exact ih

/-- Reachable, with counts that may be read. -/
def Clean (f1 f2 : Forest) (s : RedBlue2) : Prop := Reachable f1 f2 s ∧ s.countsDirty = false

/-- The program keeps `P` and reads no count that is out of date. -/
def Kept {α : Type} (P : RedBlue2 → Prop) (f : Run α) : Prop := Ends (· ≠ Failure.stale) P f fun _ => P

section Rules

variable {α β : Type} {P : RedBlue2 → Prop}

/-- A value reads nothing. -/
theorem Kept.pure {a : α} : Kept P (Pure.pure a) := Ends.pure fun _ h => h

/-- Running out of fuel is no stale read. -/
theorem Kept.fuel : Kept P (throw Failure.fuel : Run α) := Ends.throw (by decide)

/-- Two parts after each other are kept when both are. -/
theorem Kept.bind {f : Run β} {g : β → Run α} (hf : Kept P f) (hg : ∀ b, Kept P (g b)) : Kept P (f >>= g) :=
  Ends.bind hf hg

/-- Looking at the state is no stale read. -/
theorem Kept.get : Kept P get := Ends.get fun _ h => h

/-- A branch is kept when both sides are. -/
theorem Kept.ite {c : Prop} [Decidable c] {f g : Run α} (hf : Kept P f) (hg : Kept P g) : Kept P (if c then f else g) :=
  Ends.ite (fun _ => hf) fun _ => hg

/-- A failing access is no stale read. -/
theorem Kept.access {x : Option α} : Kept P (access x) := by
  cases x with
  | none => exact Ends.throw (by decide)
  | some a => exact Kept.pure

end Rules

/-- Properties that count queries keep: all reachable states, and those with counts that
may be read. -/
structure Stable (f1 f2 : Forest) (P : RedBlue2 → Prop) : Prop where
  reachable : ∀ s, P s → Reachable f1 f2 s
  ensure : ∀ s, P s →
    P { s with t1 := s.t1.refreshCounts s.active, t2 := s.t2.refreshCounts s.active, countsDirty := false }

/-- In a reachable state the counts can be ensured. -/
theorem stable_reachable : Stable f1 f2 (Reachable f1 f2) := ⟨fun _ h => h, fun _ h => h.ensureCounts⟩

/-- In a clean state the counts stay clean. -/
theorem stable_clean : Stable f1 f2 (Clean f1 f2) := ⟨fun _ h => h.1, fun _ h => ⟨h.1.ensureCounts, rfl⟩⟩

/-- **`ensureCounts` makes the counts readable.** -/
theorem ends_ensureCounts {P : RedBlue2 → Prop} (hP : Stable f1 f2 P) :
    Ends (· ≠ Failure.stale) P ensureCounts fun _ s => P s ∧ s.countsDirty = false :=
  Ends.modify fun s hs => by
    split_ifs with hdirty
    · exact ⟨hP.ensure s hs, rfl⟩
    · exact ⟨hs, Bool.eq_false_iff.2 hdirty⟩

/-- **A count is read when it is up to date.** -/
theorem kept_readCount {v : Side} {i : ℕ} : Kept (Clean f1 f2) (readCount v i) :=
  Ends.get_bind fun s hs => by
    rw [if_pos (hs.1.fresh hs.2 v i)]
    exact Ends.pure fun _ h => h ▸ hs

section Queries

variable {P : RedBlue2 → Prop} (hP : Stable f1 f2 P) {v : Side}

include hP

/-- `countUnder` ensures the counts before it reads one. -/
theorem kept_countUnder {n : Ptr} : Kept P (countUnder v n) := by
  have hread : Kept (fun s => P s ∧ s.countsDirty = false) (do
      let i ← access (((← MonadState.get).view v).indexAt n)
      readCount v i) := by
    refine Kept.get.bind fun _ => Kept.access.bind fun i => Ends.get_bind fun s hs => ?_
    rw [if_pos ((hP.reachable s hs.1).fresh hs.2 v i)]
    exact Ends.pure fun _ h => h ▸ hs
  exact Ends.bind (ends_ensureCounts hP) fun _ => Ends.conseq hread (fun _ h => h) fun _ _ h => h.1

/-- `hasActiveUnder` reads through `countUnder`. -/
theorem kept_hasActiveUnder {n : Ptr} : Kept P (hasActiveUnder v n) := (kept_countUnder hP).bind fun _ => .pure

omit hP in
/-- `node` reads no counts. -/
theorem kept_node {u : Label} : Kept P (node v u) := Kept.get.bind fun _ => .access

omit hP in
/-- `rootOfLeaf` reads no counts. -/
theorem kept_rootOfLeaf {u : Label} : Kept P (rootOfLeaf v u) := kept_node.bind fun _ => Kept.get.bind fun _ => .pure

omit hP in
/-- `sameTree` reads no counts. -/
theorem kept_sameTree {a b : Label} : Kept P (sameTree v a b) :=
  kept_rootOfLeaf.bind fun _ => kept_rootOfLeaf.bind fun _ => .pure

/-- `aloneInTree` reads through `countUnder`. -/
theorem kept_aloneInTree {u : Label} : Kept P (aloneInTree v u) :=
  kept_rootOfLeaf.bind fun _ => (kept_countUnder hP).bind fun _ => .pure

omit hP in
/-- `lcaLeaves` reads no counts. -/
theorem kept_lcaLeaves {a b : Label} : Kept P (lcaLeaves v a b) :=
  kept_node.bind fun _ => kept_node.bind fun _ => Kept.get.bind fun _ => .pure

/-- `activeSiblings` reads through `hasActiveUnder`. -/
theorem kept_activeSiblings {a b : Label} : Kept P (activeSiblings v a b) := by
  refine kept_sameTree.bind fun _ => Kept.ite (kept_lcaLeaves.bind fun m => ?_) .pure
  cases m with
  | none => exact .pure
  | some m => exact (kept_countUnder hP).bind fun _ => .pure

/-- `activeSibling` reads through `hasActiveUnder`. -/
theorem kept_activeSibling {child : Ptr} {sibs : List (Option Ptr)} : Kept P (activeSibling v child sibs) := by
  induction sibs with
  | nil => exact .pure
  | cons sib sibs ih =>
      cases sib with
      | none => exact ih
      | some sib => exact Kept.ite ih ((kept_hasActiveUnder hP).bind fun _ => Kept.ite .pure ih)

/-- `activeSiblingBelow` reads through `activeSibling`. -/
theorem kept_activeSiblingBelow {child parent : Ptr} : Kept P (activeSiblingBelow v child parent) :=
  Kept.get.bind fun _ => kept_activeSibling hP

omit hP in
/-- `height` reads no counts. -/
theorem kept_height : Kept P (height v) := Kept.get.bind fun _ => .pure

/-- The loop of `pBelowLca` reads through `activeSiblingBelow`. -/
theorem kept_pBelowLoop {m : Option Ptr} {fuel : ℕ} {child : Ptr} : Kept P (pBelowLoop v m fuel child) := by
  induction fuel generalizing child with
  | zero => exact .fuel
  | succ fuel ih =>
      refine Kept.get.bind fun s => ?_
      cases (s.view v).parent child with
      | none => exact .pure
      | some parent =>
          refine Kept.ite .pure ((kept_activeSiblingBelow hP).bind fun sib => ?_)
          cases sib with
          | none => exact ih
          | some _ => exact .pure

/-- `pBelowLca` reads no stale counts. -/
theorem kept_pBelowLca {u vv : Label} : Kept P (pBelowLca v u vv) :=
  kept_lcaLeaves.bind fun _ => kept_height.bind fun _ => kept_node.bind fun _ => kept_pBelowLoop hP

omit hP in
/-- `activeLabelsUnder` walks over the nodes and reads no counts. -/
theorem kept_activeLabelsUnder {n : Ptr} : Kept P (activeLabelsUnder v n) := Kept.get.bind fun _ => .access

omit hP in
/-- `origLca2InTreeOf` reads no counts. -/
theorem kept_origLca2InTreeOf {u vv : Label} : Kept P (origLca2InTreeOf u vv) := by
  refine Kept.get.bind fun s => Kept.access.bind fun nu => Kept.access.bind fun nv => ?_
  cases s.t2o.view.lca nu nv with
  | none => exact .pure
  | some lo => exact Kept.access.bind fun _ => Kept.access.bind fun _ => kept_rootOfLeaf.bind fun _ => .pure

omit hP in
/-- `uTreeHasActiveOutsideU` reads no stale counts. -/
theorem kept_uTreeHasActiveOutsideU {u : Label} {U : List Label} : Kept P (uTreeHasActiveOutsideU u U) :=
  kept_rootOfLeaf.bind fun _ => kept_activeLabelsUnder.bind fun _ => .pure

omit hP in
/-- `restrictsO` reads no stale counts. -/
theorem kept_restrictsO {u vv w : Label} : Kept P (restrictsO u vv w) :=
  Kept.get.bind fun _ => Kept.access.bind fun _ => .pure

omit hP in
/-- `activeIn` reads no counts. -/
theorem kept_activeIn {S : List Label} : Kept P (activeIn S) := Kept.get.bind fun _ => .pure

omit hP in
/-- `hasOutlier` reads no counts. -/
theorem kept_hasOutlier {uh vh : Label} {ws : List Label} : Kept P (hasOutlier uh vh ws) := by
  induction ws with
  | nil => exact .pure
  | cons w ws ih => exact Kept.ite ih (kept_restrictsO.bind fun _ => Kept.ite .pure ih)

end Queries

/-! Scans, on counts that may be read. -/

section Scans

variable {v : Side}

/-- `countAt` reads clean counts. -/
theorem kept_countAt {i : Option ℕ} : Kept (Clean f1 f2) (countAt v i) := by
  cases i with
  | none => exact .pure
  | some i => exact kept_readCount

/-- `activeChild` reads clean counts. -/
theorem kept_activeChild {i : Option ℕ} : Kept (Clean f1 f2) (activeChild v i) := by
  cases i with
  | none => exact .pure
  | some i => exact kept_readCount.bind fun _ => Kept.ite .pure .pure

/-- The loop of `twoActiveUnder` reads clean counts. -/
theorem kept_twoActiveLoop {fuel : ℕ} {stack : List ℕ} {found : List Label} :
    Kept (Clean f1 f2) (twoActiveLoop v fuel stack found) := by
  induction fuel generalizing stack found with
  | zero =>
      cases stack with
      | nil =>
          rw [twoActiveLoop]
          exact .pure
      | cons i stack =>
          rw [twoActiveLoop]
          exact Kept.ite .fuel .pure
  | succ fuel ih =>
      cases stack with
      | nil =>
          rw [twoActiveLoop]
          exact .pure
      | cons i stack =>
          rw [twoActiveLoop]
          exact Kept.ite (Kept.get.bind fun _ => Kept.ite ih (kept_activeChild.bind fun _ =>
            kept_activeChild.bind fun _ => ih)) .pure

/-- `twoActiveUnder` reads clean counts. -/
theorem kept_twoActiveUnder {start : ℕ} : Kept (Clean f1 f2) (twoActiveUnder v start) :=
  kept_height.bind fun _ => kept_twoActiveLoop.bind fun _ => .pure

/-- `oneActiveUnder` reads clean counts. -/
theorem kept_oneActiveUnder {fuel i : ℕ} : Kept (Clean f1 f2) (oneActiveUnder v fuel i) := by
  induction fuel generalizing i with
  | zero => exact .fuel
  | succ fuel ih =>
      refine Kept.get.bind fun s => Kept.ite (kept_activeChild.bind fun cs => ?_) .pure
      cases cs with
      | nil => exact Kept.access.bind fun _ => ih
      | cons c _ => exact ih

/-- `isCherry` reads clean counts. -/
theorem kept_isCherry {i : ℕ} : Kept (Clean f1 f2) (isCherry i) :=
  Kept.get.bind fun _ => Kept.ite .pure (kept_readCount.bind fun _ => Kept.ite .pure (kept_countAt.bind fun _ =>
    Kept.ite .pure (kept_countAt.bind fun _ => Kept.ite .pure .pure)))

/-- The scan for cherries keeps the counts clean when its test does. -/
theorem kept_scanCherries {test : Label → Label → Run Bool} (htest : ∀ u vv, Kept (Clean f1 f2) (test u vv))
    {is : List ℕ} : Kept (Clean f1 f2) (scanCherries test is) := by
  induction is with
  | nil => exact .pure
  | cons i is ih =>
      exact kept_isCherry.bind fun _ => Kept.ite (kept_twoActiveUnder.bind fun r => (htest r.1 r.2).bind fun _ =>
        Kept.ite .pure ih) ih

/-- The scan for labels that are alone reads clean counts. -/
theorem kept_scanAlone {is : List ℕ} : Kept (Clean f1 f2) (scanAlone is) := by
  induction is with
  | nil => exact .pure
  | cons i is ih =>
      exact Kept.get.bind fun _ => Kept.ite (kept_readCount.bind fun _ =>
        Kept.ite (kept_height.bind fun _ => kept_oneActiveUnder) ih) ih

/-- A scan after `ensureCounts`. -/
theorem kept_ensureCounts_bind {α : Type} {f : Unit → Run α} (hf : ∀ u, Kept (Clean f1 f2) (f u)) :
    Kept (Reachable f1 f2) (ensureCounts >>= f) :=
  Ends.bind (ends_ensureCounts stable_reachable) fun u => (hf u).conseq (fun _ h => h) fun _ _ h => h.1

/-- `findBothForestCherry` ensures the counts of both views first. -/
theorem kept_findBothForestCherry : Kept (Reachable f1 f2) findBothForestCherry :=
  kept_ensureCounts_bind fun _ => kept_height.bind fun _ => kept_scanCherries
    fun _ _ => kept_activeSiblings stable_clean

/-- `findT2Alone` ensures the counts first. -/
theorem kept_findT2Alone : Kept (Reachable f1 f2) findT2Alone :=
  Kept.get.bind fun _ => Kept.ite .pure (kept_ensureCounts_bind fun _ => kept_height.bind fun _ => kept_scanAlone)

/-- `activeSiblingPairIn` ensures the counts of both views first. -/
theorem kept_activeSiblingPairIn {S : List Label} : Kept (Reachable f1 f2) (activeSiblingPairIn S) :=
  kept_ensureCounts_bind fun _ => kept_height.bind fun _ => kept_scanCherries fun _ _ => .pure

end Scans

/-! Procedures that change the forests and the active labels. -/

section Procedures

variable {v : Side}

/-- `deactivate` marks the counts as stale. -/
theorem kept_deactivate {u : Label} : Kept (Reachable f1 f2) (deactivate u) := Ends.modify fun _ h => h.deactivate u

/-- `cutEdge` marks the counts of its view as stale. -/
theorem kept_cutEdge {n : Ptr} : Kept (Reachable f1 f2) (cutEdge v n) := Ends.modify fun _ h => h.cutEdge v n

/-- `addDual` touches no counts. -/
theorem kept_addDual {d : ℤ} : Kept (Reachable f1 f2) (addDual d) :=
  Ends.modify fun s h => h.credit (s.dualSum + d) s.sawStar

/-- The flag of a star touches no counts. -/
theorem kept_sawStar {b : Bool} : Kept (Reachable f1 f2) (modify fun s => { s with sawStar := b }) :=
  Ends.modify fun s h => h.credit s.dualSum b

/-- The loop of `cutOffLeaf` reads through `activeSiblingBelow`. -/
theorem kept_cutOffLoop {fuel : ℕ} {child : Ptr} : Kept (Reachable f1 f2) (cutOffLoop v fuel child) := by
  induction fuel generalizing child with
  | zero => exact .fuel
  | succ fuel ih =>
      refine Kept.get.bind fun s => ?_
      cases (s.view v).parent child with
      | none => exact .pure
      | some parent =>
          refine (kept_activeSiblingBelow stable_reachable).bind fun sib => ?_
          cases sib with
          | none => exact ih
          | some _ => exact kept_cutEdge

/-- `cutOffLeaf` reads no stale counts. -/
theorem kept_cutOffLeaf {u : Label} : Kept (Reachable f1 f2) (cutOffLeaf v u) :=
  kept_height.bind fun _ => kept_node.bind fun _ => kept_cutOffLoop

/-- The loop of `cutPendant` reads through `hasActiveUnder`. -/
theorem kept_cutPendantLoop {fuel : ℕ} {child : Ptr} : Kept (Reachable f1 f2) (cutPendantLoop v fuel child) := by
  induction fuel generalizing child with
  | zero => exact .fuel
  | succ fuel ih =>
      refine Kept.get.bind fun s => ?_
      cases (s.view v).parent child with
      | none => exact .pure
      | some parent =>
          refine (kept_activeSiblingBelow stable_reachable).bind fun sib => ?_
          cases sib with
          | none => exact ih
          | some _ => exact kept_cutEdge

/-- `cutPendant` reads no stale counts. -/
theorem kept_cutPendant {u : Label} : Kept (Reachable f1 f2) (cutPendant v u) :=
  kept_height.bind fun _ => kept_node.bind fun _ => kept_cutPendantLoop

/-- `settle` reads no stale counts. -/
theorem kept_settle {u : Label} : Kept (Reachable f1 f2) (settle u) :=
  kept_cutOffLeaf.bind fun _ => kept_deactivate.bind fun _ => kept_addDual

/-- `resolvePair` reads no stale counts. -/
theorem kept_resolvePair {u vv : Label} {U : List Label} : Kept (Reachable f1 f2) (resolvePair u vv U) := by
  have hsib : ∀ {a b : Label}, Kept (Reachable f1 f2) (activeSiblings .t2 a b) := kept_activeSiblings stable_reachable
  refine kept_sameTree.bind fun _ => Kept.ite (hsib.bind fun _ => Kept.ite kept_deactivate ?_) ?_
  · refine (kept_pBelowLca stable_reachable).bind fun below => ?_
    exact kept_cutPendant.bind fun _ => kept_addDual.bind fun _ => hsib.bind fun _ =>
      Kept.ite (kept_deactivate.bind fun _ => kept_addDual.bind fun _ => kept_sawStar)
        (kept_cutOffLeaf.bind fun _ => kept_cutOffLeaf.bind fun _ => kept_deactivate.bind fun _ => kept_addDual)
  · exact kept_origLca2InTreeOf.bind fun _ => kept_uTreeHasActiveOutsideU.bind fun _ =>
      Kept.ite (kept_cutOffLeaf.bind fun _ => kept_settle.bind fun _ => kept_sawStar) kept_settle

/-- The loop over the pairs reads no stale counts. -/
theorem kept_resolvePairs {least : ℕ} {U : List Label} {fuel : ℕ} :
    Kept (Reachable f1 f2) (resolvePairs least U fuel) := by
  induction fuel with
  | zero => exact .fuel
  | succ fuel ih =>
      exact kept_activeIn.bind fun _ => Kept.ite (kept_activeSiblingPairIn.bind fun _ =>
        Kept.ite .pure (kept_resolvePair.bind fun _ => ih)) .pure

/-- `finalize` reads no stale counts. -/
theorem kept_finalize {u : Label} : Kept (Reachable f1 f2) (finalize u) :=
  (kept_aloneInTree stable_reachable).bind fun _ => Kept.ite (kept_cutOffLeaf.bind fun _ => kept_settle) kept_settle

/-- `finalizeFirst` reads no stale counts. -/
theorem kept_finalizeFirst {S : List Label} : Kept (Reachable f1 f2) (finalizeFirst S) := by
  cases S with
  | nil => exact .pure
  | cons u _ => exact kept_finalize

/-- The last step of `resolveSet` reads no stale counts. -/
theorem kept_resolveLast {R : List Label} {uh vh : Label} : Kept (Reachable f1 f2) (resolveLast R uh vh) := by
  refine (kept_activeSiblings stable_reachable).bind fun _ => Kept.ite
    (kept_deactivate.bind fun _ => kept_addDual.bind fun _ => .pure) (kept_sameTree.bind fun same => ?_)
  have hrest : ∀ hasW : Bool, Kept (Reachable f1 f2) (do
      if !same || !hasW then
        finalize uh
        finalize vh
        pure true
      else if (← get).sawStar then
        resolvePair uh vh R
        finalizeFirst (← activeIn R)
        pure true
      else pure false) := fun hasW =>
    Kept.ite (kept_finalize.bind fun _ => kept_finalize.bind fun _ => .pure) (Kept.get.bind fun _ =>
      Kept.ite (kept_resolvePair.bind fun _ => kept_activeIn.bind fun _ => kept_finalizeFirst.bind fun _ => .pure)
        .pure)
  exact Kept.ite (kept_rootOfLeaf.bind fun _ => kept_activeLabelsUnder.bind fun _ => kept_hasOutlier.bind hrest)
    (Kept.pure.bind hrest)

/-- `resolveSet` reads no stale counts. -/
theorem kept_resolveSet {R : List Label} : Kept (Reachable f1 f2) (resolveSet R) := by
  refine kept_sawStar.bind fun _ => kept_addDual.bind fun _ => kept_resolvePairs.bind fun _ =>
    kept_activeIn.bind fun rem => ?_
  match rem with
  | [] => exact .pure
  | [_] => exact .pure
  | _ :: _ :: _ => exact kept_resolveLast

/-- The loop of `lcaSet` reads no counts. -/
theorem kept_lcaSetLoop {P : RedBlue2 → Prop} {xs : List Label} {cur : Option Ptr} : Kept P (lcaSetLoop v xs cur) := by
  induction xs generalizing cur with
  | nil => exact .pure
  | cons x xs ih =>
      cases cur with
      | none => exact .pure
      | some cur => exact kept_node.bind fun _ => Kept.get.bind fun _ => ih

/-- `lcaSet` reads no counts. -/
theorem kept_lcaSet {P : RedBlue2 → Prop} {xs : List Label} : Kept P (lcaSet v xs) := by
  cases xs with
  | nil => exact .pure
  | cons x xs => exact kept_node.bind fun _ => kept_lcaSetLoop

/-- `childSets` reads no counts. -/
theorem kept_childSets {P : RedBlue2 → Prop} {chs : List (Option Ptr)} : Kept P (childSets chs) := by
  induction chs with
  | nil => exact .pure
  | cons ch chs ih =>
      cases ch with
      | none => exact ih
      | some ch => exact kept_activeLabelsUnder.bind fun _ => ih.bind fun _ => .pure

/-- `orient` reads no counts. -/
theorem kept_orient {P : RedBlue2 → Prop} {A C : List Label} : Kept P (orient A C) :=
  kept_lcaSet.bind fun _ => kept_lcaSet.bind fun _ => Kept.ite .pure (kept_lcaSet.bind fun _ =>
    Kept.ite .pure (Kept.ite .pure (Kept.ite .pure (Kept.ite .pure .pure))))

variable {checkCompat : Bool} {order : Finset Label → List Label}

/-- `compatible` works on the original trees. -/
theorem kept_compatible {P : RedBlue2 → Prop} {S : List Label} : Kept P (compatible checkCompat S) :=
  Kept.get.bind fun _ => .access

/-- `descend` reads no counts. -/
theorem kept_descend {P : RedBlue2 → Prop} {fuel : ℕ} {node : Option Ptr} : Kept P (descend checkCompat fuel node) := by
  induction fuel generalizing node with
  | zero =>
      cases node with
      | none => exact .pure
      | some node => exact .fuel
  | succ fuel ih =>
      cases node with
      | none => exact .pure
      | some node =>
          refine Kept.get.bind fun _ => kept_childSets.bind fun sets => ?_
          match sets with
          | [] => exact .pure
          | [_] => exact kept_lcaSet.bind fun _ => Kept.ite .pure ih
          | A :: C :: _ =>
              have hrest : ∀ okA ok : Bool, Kept P (if ok then some <$> orient A C else do
                  descend checkCompat fuel (← lcaSet .t1 (if okA then C else A))) := fun _ _ =>
                Kept.ite (kept_orient.bind fun _ => .pure) (kept_lcaSet.bind fun _ => ih)
              exact kept_compatible.bind fun okA => Kept.ite (kept_compatible.bind (hrest okA))
                (Kept.pure.bind (hrest okA))

/-- `findMinIncompat` reads no counts. -/
theorem kept_findMinIncompat {P : RedBlue2 → Prop} : Kept P (findMinIncompat checkCompat order) :=
  Kept.get.bind fun _ => Kept.ite .pure (kept_height.bind fun _ => kept_lcaSet.bind fun _ => kept_descend)

/-- `proc4a` reads no stale counts. -/
theorem kept_proc4a {r1 r2 b : Label} : Kept (Reachable f1 f2) (proc4a r1 r2 b) := by
  have hrest : ∀ r1 r2 : Label, Kept (Reachable f1 f2) (do
      addDual (-1)
      cutOffLeaf .t2 r2
      settle r2
      if ← activeSiblings .t2 r1 b then
        deactivate b
        addDual 1
      else
        cutOffLeaf .t2 r1
        settle r1
        cutOffLeaf .t2 b
        settle b) := fun r1 r2 =>
    kept_addDual.bind fun _ => kept_cutOffLeaf.bind fun _ => kept_settle.bind fun _ =>
      (kept_activeSiblings stable_reachable).bind fun _ => Kept.ite (kept_deactivate.bind fun _ => kept_addDual)
        (kept_cutOffLeaf.bind fun _ => kept_settle.bind fun _ => kept_cutOffLeaf.bind fun _ => kept_settle)
  refine kept_restrictsO.bind fun close => kept_lcaLeaves.bind fun m => ?_
  cases m with
  | none => exact hrest _ _
  | some m => exact Kept.get.bind fun _ => Kept.ite (kept_cutEdge.bind fun _ => hrest _ _) (hrest _ _)

/-- `proc4b` reads no stale counts. -/
theorem kept_proc4b {r1 r2 b : Label} : Kept (Reachable f1 f2) (proc4b r1 r2 b) :=
  kept_cutOffLeaf.bind fun _ => kept_settle.bind fun _ => kept_finalize.bind fun _ => kept_finalize

/-- The search for a label reads no stale counts when its test reads none. -/
theorem kept_firstLabel {P : RedBlue2 → Prop} {test : Label → Run Bool} (htest : ∀ x, Kept P (test x))
    {xs : List Label} :
    Kept P (firstLabel test xs) := by
  induction xs with
  | nil => exact .pure
  | cons x xs ih => exact (htest x).bind fun _ => Kept.ite .pure ih

/-- `apart` reads no counts. -/
theorem kept_apart {P : RedBlue2 → Prop} {trip : List Label} {x : Label} : Kept P (apart trip x) :=
  kept_sameTree.bind fun _ => Kept.ite .pure (kept_sameTree.bind fun _ => .pure)

/-- `proc4c` reads no stale counts. -/
theorem kept_proc4c {r1 r2 b : Label} : Kept (Reachable f1 f2) (proc4c r1 r2 b) := by
  have hrest : ∀ uHat : Label, Kept (Reachable f1 f2) (do
      let uHat := if uHat = 0 then b else uHat
      let v := others [r1, r2, b] uHat
      finalize uHat
      if ← activeSiblings .t2 v.1 v.2 then
        deactivate (if v.2 = b then v.2 else v.1)
        addDual 1
      else
        resolvePair v.1 v.2 [v.1, v.2]
        finalizeFirst (← activeIn [v.1, v.2])) := fun _ =>
    kept_finalize.bind fun _ => (kept_activeSiblings stable_reachable).bind fun _ =>
      Kept.ite (kept_deactivate.bind fun _ => kept_addDual)
        (kept_resolvePair.bind fun _ => kept_activeIn.bind fun _ => kept_finalizeFirst)
  exact (kept_firstLabel fun _ => kept_apart).bind fun _ => Kept.ite
    ((kept_firstLabel fun _ => kept_aloneInTree stable_reachable).bind hrest) (Kept.pure.bind hrest)

/-- `finalizeRest` reads no stale counts. -/
theorem kept_finalizeRest {xs : List Label} : Kept (Reachable f1 f2) (finalizeRest xs) := by
  induction xs with
  | nil => exact .pure
  | cons x xs ih => exact Kept.get.bind fun _ => Kept.ite (kept_finalize.bind fun _ => ih) ih

/-- `preprocess` reads no stale counts. -/
theorem kept_preprocess {fuel : ℕ} : Kept (Reachable f1 f2) (preprocess fuel) := by
  induction fuel with
  | zero => exact .fuel
  | succ fuel ih =>
      exact kept_findBothForestCherry.bind fun _ => Kept.ite (kept_deactivate.bind fun _ => ih)
        (kept_findT2Alone.bind fun _ => Kept.ite (kept_settle.bind fun _ => ih) .pure)

/-- `resolveTriplet` reads no stale counts. -/
theorem kept_resolveTriplet {R B : List Label} : Kept (Reachable f1 f2) (resolveTriplet R B) := by
  refine kept_resolvePairs.bind fun _ => kept_activeIn.bind fun remR => kept_activeIn.bind fun remB => ?_
  split
  · exact kept_rootOfLeaf.bind fun _ => kept_rootOfLeaf.bind fun _ => kept_rootOfLeaf.bind fun _ =>
      Kept.ite (kept_proc4a.bind fun _ => .pure) (Kept.ite (kept_proc4b.bind fun _ => .pure)
        (kept_proc4c.bind fun _ => .pure))
  · exact kept_finalizeRest.bind fun _ => .pure

/-- The bound on the rounds reads no counts. -/
theorem kept_rounds {P : RedBlue2 → Prop} : Kept P rounds := Kept.get.bind fun _ => .pure

/-- An iteration that does not end the pass ends in a reachable state. -/
theorem ends_iteration : Ends (· ≠ Failure.stale) (Reachable f1 f2) (iteration checkCompat order) fun outcome s =>
    outcome.isFinal = false → Reachable f1 f2 s := by
  have hfinal : ∀ {outcome : Outcome} {P : RedBlue2 → Prop}, outcome.isFinal = true →
      Ends (· ≠ Failure.stale) P (do
        modify fun s => { s with active := ∅ }
        pure outcome) fun outcome s => outcome.isFinal = false → Reachable f1 f2 s := fun hout =>
    fun _ _ h => absurd (hout.symm.trans h) Bool.noConfusion
  have hkept : ∀ {f : Run Outcome}, Kept (Reachable f1 f2) f →
      Ends (· ≠ Failure.stale) (Reachable f1 f2) f
        fun outcome s => outcome.isFinal = false → Reachable f1 f2 s := fun h =>
    h.conseq (fun _ h => h) fun _ _ h _ => h
  refine Ends.bind Kept.get fun _ => Ends.ite (fun _ => hfinal rfl) fun _ => Ends.bind kept_findMinIncompat fun r => ?_
  cases r with
  | none => exact hfinal rfl
  | some r =>
      refine hkept (kept_resolveSet.bind fun _ => Kept.ite ?_ ?_)
      · exact Kept.pure.bind fun _ => kept_rounds.bind fun _ => kept_preprocess.bind fun _ => .pure
      · exact kept_resolveTriplet.bind fun _ => kept_rounds.bind fun _ => kept_preprocess.bind fun _ => .pure

/-- The main loop reads no stale counts. -/
theorem ends_mainLoop {guard : ℕ} :
    Ends (· ≠ Failure.stale) (Reachable f1 f2) (mainLoop checkCompat order guard) fun _ _ => True := by
  induction guard with
  | zero => exact Ends.pure fun _ _ => trivial
  | succ guard ih =>
      refine Ends.bind Kept.get fun _ => Ends.ite (fun _ => Ends.pure fun _ _ => trivial) fun _ =>
        Ends.bind ends_iteration fun outcome => Ends.ite (fun _ => Ends.pure fun _ _ => trivial) fun hout => ?_
      exact Ends.bind (ih.conseq (fun _ h => h (Bool.eq_false_iff.2 hout)) fun _ _ h => h) fun _ =>
        Ends.pure fun _ _ => trivial

/-- **The whole pass never reads a count that is out of date.** -/
theorem ends_run : Ends (· ≠ Failure.stale) (Reachable f1 f2) (run checkCompat order) fun _ _ => True :=
  Ends.bind kept_rounds fun _ => Ends.bind kept_preprocess fun _ => Ends.bind ends_mainLoop fun _ =>
    Ends.get_bind fun _ _ => Ends.pure fun _ _ => trivial

end Procedures

/-- **Nothing reads a count that is out of date**, from any reachable state: no predicate,
no scan and no procedure of the pass, nor the descents that a scan starts when the counts
may be read.  Afterwards the state is reachable again. -/
structure ReadsFresh (f1 f2 : Forest) : Prop where
  countUnder : ∀ v n, Kept (Reachable f1 f2) (countUnder v n)
  aloneInTree : ∀ v u, Kept (Reachable f1 f2) (aloneInTree v u)
  activeSiblings : ∀ v a b, Kept (Reachable f1 f2) (activeSiblings v a b)
  pBelowLca : ∀ v u vv, Kept (Reachable f1 f2) (pBelowLca v u vv)
  cutOffLeaf : ∀ v u, Kept (Reachable f1 f2) (cutOffLeaf v u)
  cutPendant : ∀ v u, Kept (Reachable f1 f2) (cutPendant v u)
  twoActiveUnder : ∀ v i, Kept (Clean f1 f2) (twoActiveUnder v i)
  oneActiveUnder : ∀ v fuel i, Kept (Clean f1 f2) (oneActiveUnder v fuel i)
  findBothForestCherry : Kept (Reachable f1 f2) findBothForestCherry
  findT2Alone : Kept (Reachable f1 f2) findT2Alone
  activeSiblingPairIn : ∀ S, Kept (Reachable f1 f2) (activeSiblingPairIn S)
  resolvePair : ∀ u vv U, Kept (Reachable f1 f2) (resolvePair u vv U)
  resolveSet : ∀ R, Kept (Reachable f1 f2) (resolveSet R)
  proc4a : ∀ r1 r2 b, Kept (Reachable f1 f2) (proc4a r1 r2 b)
  proc4b : ∀ r1 r2 b, Kept (Reachable f1 f2) (proc4b r1 r2 b)
  proc4c : ∀ r1 r2 b, Kept (Reachable f1 f2) (proc4c r1 r2 b)
  preprocess : ∀ fuel, Kept (Reachable f1 f2) (preprocess fuel)
  run : ∀ checkCompat order, Ends (· ≠ Failure.stale) (Reachable f1 f2) (run checkCompat order) fun _ _ => True

/-- Every query of the views reads fresh counts. -/
theorem readsFresh (f1 f2 : Forest) : ReadsFresh f1 f2 where
  countUnder _ _ := kept_countUnder stable_reachable
  aloneInTree _ _ := kept_aloneInTree stable_reachable
  activeSiblings _ _ _ := kept_activeSiblings stable_reachable
  pBelowLca _ _ _ := kept_pBelowLca stable_reachable
  cutOffLeaf _ _ := kept_cutOffLeaf
  cutPendant _ _ := kept_cutPendant
  twoActiveUnder _ _ := kept_twoActiveUnder
  oneActiveUnder _ _ _ := kept_oneActiveUnder
  findBothForestCherry := kept_findBothForestCherry
  findT2Alone := kept_findT2Alone
  activeSiblingPairIn _ := kept_activeSiblingPairIn
  resolvePair _ _ _ := kept_resolvePair
  resolveSet _ := kept_resolveSet
  proc4a _ _ _ := kept_proc4a
  proc4b _ _ _ := kept_proc4b
  proc4c _ _ _ := kept_proc4c
  preprocess _ := kept_preprocess
  run _ _ := ends_run

/-- **The cached counts.**  After any cuts the index arrays of a view mirror the links of
its nodes, and `refreshCounts` sets every count to the number of active leaves below the
node in the cut forest.  In every reachable state of the pass whose flag is unset the
counts are those of the current active leaves and the current cuts, and no read of a count
ever sees another value. -/
theorem counts_fresh (hf1 : WellFormed f1) (hf2 : WellFormed f2) :
    (∀ (ns : List Ptr) (active : Finset Label),
      (ns.foldl MutableForestView.cut (.ofForest f1)).MirrorsLinks ∧
      ∀ i n, (ns.foldl MutableForestView.cut (.ofForest f1)).nodes[i]? = some n →
        ((ns.foldl MutableForestView.cut (.ofForest f1)).refreshCounts active).counts i =
          ((ns.foldl MutableForestView.cut (.ofForest f1)).below active n).ncard) ∧
    (∀ s, Reachable f1 f2 s → s.countsDirty = false → ∀ v i n, (s.view v).nodes[i]? = some n →
      (s.view v).counts i = ((s.view v).below s.active n).ncard) ∧
    ReadsFresh f1 f2 := by
  refine ⟨fun ns active => ?_, fun s hs hclean v i n hn => ?_, readsFresh f1 f2⟩
  · obtain ⟨K, hcut⟩ := MutableForestView.exists_cutAt_foldl hf1 ns
    exact ⟨hcut.mirrorsLinks, fun i n hn => hcut.counts_below hf1 active hn⟩
  · have hf : WellFormed (input f1 f2 v) := by cases v <;> assumption
    obtain ⟨K, hcut⟩ := hs.exists_cutAt hf1 hf2 v
    rw [hs.fresh hclean v i]
    exact hcut.counts_below hf s.active hn

/-- The cherry of `1` and `2` with the leaf `1` cut off: one active leaf is left below the
root. -/
theorem counts_fresh_twoTrees :
    (((MutableForestView.ofForest MutableForestView.twoTrees).cut 1).refreshCounts {1, 2}).counts 0 =
      (((MutableForestView.ofForest MutableForestView.twoTrees).cut 1).below {1, 2} 0).ncard ∧
    (((MutableForestView.ofForest MutableForestView.twoTrees).cut 1).refreshCounts {1, 2}).counts 0 = 1 ∧
    ReadsFresh MutableForestView.twoTrees MutableForestView.twoTrees := by
  have h := counts_fresh MutableForestView.wellFormed_twoTrees MutableForestView.wellFormed_twoTrees
  exact ⟨(h.1 [1] {1, 2}).2 0 0 (by decide), by decide, h.2.2⟩

end RedBlue2

end Approx
end Maf
