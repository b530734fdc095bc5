/-
# Collapsing common subtrees keeps the optimum

`SubtreeReductionRule::apply` of `src/Solver/Rule/SubtreeReductionRule.cpp` collapses the
maximal common subtrees, all those of one forest and then all those of the next one.
The forests in between have nothing in common any more; what counts is that the
lists of all forests are aligned.

One subtree collapsed in every forest keeps `k*` (`kStar_collapse`), and so do all of
them (`kStar_collapseAll`).
-/

import Maf.Action.ExpandSubtree
import Maf.ReducedOptimum
import Maf.Rule.ReductionRules

namespace Maf

namespace Tree

/-- Identical trees have the same clusters. -/
theorem Identical.clusters_eq {s t : Tree} (h : s.Identical t) : s.clusters = t.clusters := by
  have sub : ∀ {s t : Tree}, s.Identical t → s.clusters ⊆ t.clusters := by
    intro s t h X hX
    obtain ⟨u, hu, rfl⟩ := mem_clusters_iff.1 hX
    obtain ⟨w, hw, huw⟩ := h.exists_of_mem hu
    exact mem_clusters_iff.2 ⟨w, hw, huw.labels_eq.symm⟩
  exact (sub h).antisymm (sub h.symm)

end Tree

namespace Forest

variable {F G : Forest} {v : Tree}

/-- **A collapsed forest, expanded**, has the labels and the clusters of the forest. -/
theorem expandable_collapse (hF : F.Valid) (hv : v ∈ F.subtrees) (ht : v.isTerminal = false) :
    Expandable (F.collapse v.ptr).labels v.least v.labels v.clusters ∧
      F.labels = (F.collapse v.ptr).labels ∪ v.labels ∧
      F.clusters = expandAt v.least v.labels v.clusters (F.collapse v.ptr).clusters := by
  cases v with
  | leaf => cases ht
  | node p l r =>
      have hfit := fits_collapse hF hv
      have hmem := collapsed_mem_collapse hF hv
      have hback := expand_collapse hF hv
      refine ⟨expandable (hF.of_mem_subtrees hv) hfit hmem, ?_, ?_⟩
      · have := labels_expand hfit hmem
        rwa [hback] at this
      · have := clusters_expand hfit hmem
        rwa [hback] at this

/-- **One subtree that all forests have, collapsed in each of them**, keeps `k*`. -/
theorem kStar_collapse {pairs : List (Forest × Tree)} {S : Finset Label} (hne : pairs ≠ [])
    (hF : ∀ q ∈ pairs, q.1.Valid ∧ q.1.labels = S)
    (hv : ∀ q ∈ pairs, q.2 ∈ q.1.subtrees ∧ q.2.isTerminal = false)
    (hid : ∀ q ∈ pairs, ∀ q' ∈ pairs, q.2.Identical q'.2) :
    kStar (pairs.map fun q => q.1.collapse q.2.ptr) = kStar (pairs.map Prod.fst) ∧
      ∀ q ∈ pairs, ∀ q' ∈ pairs, (q.1.collapse q.2.ptr).labels = (q'.1.collapse q'.2.ptr).labels := by
  obtain ⟨q₀, hq₀⟩ := List.exists_mem_of_ne_nil pairs hne
  have hex := fun q hq => expandable_collapse (hF q hq).1 (hv q hq).1 (hv q hq).2
  have hleast : ∀ q ∈ pairs, q.2.least = q₀.2.least := fun q hq => (hid q hq q₀ hq₀).least_eq
    ((hF q hq).1.of_mem_subtrees (hv q hq).1) ((hF q₀ hq₀).1.of_mem_subtrees (hv q₀ hq₀).1)
  have hlabels : ∀ q ∈ pairs, q.2.labels = q₀.2.labels := fun q hq => (hid q hq q₀ hq₀).labels_eq
  -- the labels that are left are the same
  have hleft : ∀ q ∈ pairs, (q.1.collapse q.2.ptr).labels = insert q₀.2.least (S \ q₀.2.labels) := by
    intro q hq
    obtain ⟨h, hlab, -⟩ := hex q hq
    rw [h.eq_insert, ← hlab, (hF q hq).2, hleast q hq, hlabels q hq]
  obtain ⟨h₀, hlab₀, -⟩ := hex q₀ hq₀
  rw [hleft q₀ hq₀] at h₀ hlab₀
  rw [(hF q₀ hq₀).2] at hlab₀
  refine ⟨(kStar_expand (S := insert q₀.2.least (S \ q₀.2.labels)) ?_ ?_ h₀ ?_).symm, fun q hq q' hq' => ?_⟩
  · refine ⟨by simpa using hne, fun G hG => ?_, fun G hG => ?_⟩
    · obtain ⟨q, hq, rfl⟩ := List.mem_map.1 hG
      exact ((hF q hq).1.collapse _).distinct
    · obtain ⟨q, hq, rfl⟩ := List.mem_map.1 hG
      exact hleft q hq
  · rw [← hlab₀]
    refine ⟨by simpa using hne, fun G hG => ?_, fun G hG => ?_⟩
    · obtain ⟨q, hq, rfl⟩ := List.mem_map.1 hG
      exact (hF q hq).1.distinct
    · obtain ⟨q, hq, rfl⟩ := List.mem_map.1 hG
      exact (hF q hq).2
  · rw [Instance.clusters, Instance.clusters, List.map_map, List.map_map, List.map_map]
    refine List.map_congr_left fun q hq => ?_
    have hcl := (hex q hq).2.2
    rw [hleast q hq, hlabels q hq, (hid q hq q₀ hq₀).clusters_eq] at hcl
    exact hcl
  · rw [hleft q hq, hleft q' hq']

/-- **All common subtrees collapsed, one forest after another**: `k*` is kept. -/
theorem kStar_collapseAll {pairs : List (Forest × List Tree)} {S : Finset Label} (hne : pairs ≠ [])
    (hF : ∀ q ∈ pairs, q.1.Valid ∧ q.1.labels = S)
    (hv : ∀ q ∈ pairs, ∀ v ∈ q.2, v ∈ q.1.subtrees ∧ v.isTerminal = false)
    (hdis : ∀ q ∈ pairs, q.2.Pairwise fun u v => ∀ x ∈ u.ptrs, x ∉ v.ptrs)
    (hid : ∀ q ∈ pairs, ∀ q' ∈ pairs, List.Forall₂ Tree.Identical q.2 q'.2) :
    kStar (pairs.map fun q => q.1.collapseAll (q.2.map Tree.ptr)) = kStar (pairs.map Prod.fst) := by
  obtain ⟨q₀, hq₀⟩ := List.exists_mem_of_ne_nil pairs hne
  induction hn : q₀.2.length generalizing pairs S q₀ with
  | zero =>
      refine congrArg kStar (List.map_congr_left fun q hq => ?_)
      have hnil : q.2 = [] := List.length_eq_zero_iff.1 ((hid q hq q₀ hq₀).length_eq.trans hn)
      rw [hnil]
      rfl
  | succ n ih =>
      obtain ⟨v₀, vs₀, h₀⟩ := List.exists_cons_of_length_eq_add_one hn
      have hcons : ∀ q ∈ pairs, q.2 = q.2.headD v₀ :: q.2.tail := by
        intro q hq
        obtain ⟨v, vs, -, -, he⟩ := List.forall₂_cons_right_iff.1 (h₀ ▸ hid q hq q₀ hq₀)
        rw [he]
        rfl
      have hhead : ∀ q ∈ pairs, q.2.headD v₀ ∈ q.2 := fun q hq => by
        have := List.mem_cons_self (a := q.2.headD v₀) (l := q.2.tail)
        rwa [← hcons q hq] at this
      have htail : ∀ q ∈ pairs, ∀ v ∈ q.2.tail, v ∈ q.2 := fun q _ v hv => List.mem_of_mem_tail hv
      have hapart : ∀ q ∈ pairs, (∀ u ∈ q.2.tail, ∀ x ∈ (q.2.headD v₀).ptrs, x ∉ u.ptrs) ∧
          q.2.tail.Pairwise fun u v => ∀ x ∈ u.ptrs, x ∉ v.ptrs := fun q hq => by
        have := hdis q hq
        rw [hcons q hq] at this
        exact List.pairwise_cons.1 this
      have haligned : ∀ q ∈ pairs, ∀ q' ∈ pairs, (q.2.headD v₀).Identical (q'.2.headD v₀) ∧
          List.Forall₂ Tree.Identical q.2.tail q'.2.tail := fun q hq q' hq' => by
        have := hid q hq q' hq'
        rw [hcons q hq, hcons q' hq'] at this
        exact List.forall₂_cons.1 this
      -- the first subtree of every forest is collapsed
      have hneFirst : pairs.map (fun q => (q.1, q.2.headD v₀)) ≠ [] := by simpa using hne
      obtain ⟨hfirst, hlabels⟩ := kStar_collapse (S := S) hneFirst (List.forall_mem_map.2 hF)
        (List.forall_mem_map.2 fun q hq => hv q hq _ (hhead q hq))
        (List.forall_mem_map.2 fun q hq => List.forall_mem_map.2 fun q' hq' => (haligned q hq q' hq').1)
      rw [List.map_map, List.map_map] at hfirst
      have hneRest : pairs.map (fun q => (q.1.collapse (q.2.headD v₀).ptr, q.2.tail)) ≠ [] := by simpa using hne
      have hrest := ih (S := (q₀.1.collapse (q₀.2.headD v₀).ptr).labels) hneRest
        (List.forall_mem_map.2 fun q hq => ⟨(hF q hq).1.collapse _,
          hlabels _ (List.mem_map_of_mem hq) _ (List.mem_map_of_mem hq₀)⟩)
        (List.forall_mem_map.2 fun q hq v hvq => ⟨mem_subtrees_collapse (hF q hq).1 (hv q hq v (htail q hq v hvq)).1
          (hv q hq _ (hhead q hq)).1 ((hapart q hq).1 v hvq), (hv q hq v (htail q hq v hvq)).2⟩)
        (List.forall_mem_map.2 fun q hq => (hapart q hq).2)
        (List.forall_mem_map.2 fun q hq => List.forall_mem_map.2 fun q' hq' => (haligned q hq q' hq').2)
        _ (List.mem_map_of_mem hq₀) (by rw [List.length_tail, hn, Nat.add_sub_cancel])
      rw [List.map_map, List.map_map] at hrest
      calc kStar (pairs.map fun q => q.1.collapseAll (q.2.map Tree.ptr))
        _ = kStar (pairs.map fun q => (q.1.collapse (q.2.headD v₀).ptr).collapseAll (q.2.tail.map Tree.ptr)) := by
          refine congrArg kStar (List.map_congr_left fun q hq => ?_)
          nth_rewrite 1 [hcons q hq]
          rfl
        _ = kStar (pairs.map fun q => q.1.collapse (q.2.headD v₀).ptr) := hrest
        _ = kStar (pairs.map Prod.fst) := hfirst

/-- **The same for forests in a row**: each has its list among lists that are aligned. -/
theorem kStar_of_collapseAll {Fs Fs' : List Forest} {lists : List (ℕ × List Tree)} (hne : Fs ≠ [])
    (hF : ∀ F ∈ Fs, ∀ G ∈ Fs, F.Valid ∧ F.labels = G.labels)
    (hid : ∀ p ∈ lists, ∀ q ∈ lists, List.Forall₂ Tree.Identical p.2 q.2)
    (h : List.Forall₂ (fun F F' => ∃ p ∈ lists, F' = collapseAll (p.2.map Tree.ptr) F ∧
      (∀ v ∈ p.2, v ∈ F.subtrees ∧ v.isTerminal = false) ∧ p.2.Pairwise fun u v => ∀ x ∈ u.ptrs, x ∉ v.ptrs) Fs Fs') :
    kStar Fs' = kStar Fs := by
  obtain ⟨pairs, rfl, rfl, hpairs⟩ : ∃ pairs : List (Forest × List Tree), pairs.map Prod.fst = Fs ∧
      pairs.map (fun q => q.1.collapseAll (q.2.map Tree.ptr)) = Fs' ∧
      ∀ q ∈ pairs, (∃ p ∈ lists, q.2 = p.2) ∧ (∀ v ∈ q.2, v ∈ q.1.subtrees ∧ v.isTerminal = false) ∧
        q.2.Pairwise fun u v => ∀ x ∈ u.ptrs, x ∉ v.ptrs := by
    clear hne hF hid
    induction h with
    | nil => exact ⟨[], rfl, rfl, fun q hq => (by cases hq)⟩
    | @cons F F' Fs Fs' hhead _ ih =>
        obtain ⟨p, hp, rfl, hv, hdis⟩ := hhead
        obtain ⟨pairs, rfl, rfl, hpairs⟩ := ih
        exact ⟨(F, p.2) :: pairs, rfl, rfl, List.forall_mem_cons.2 ⟨⟨⟨p, hp, rfl⟩, hv, hdis⟩, hpairs⟩⟩
  obtain ⟨q₀, hq₀⟩ := List.exists_mem_of_ne_nil pairs (by simpa using hne)
  refine kStar_collapseAll (S := q₀.1.labels) (by simpa using hne)
    (fun q hq => hF _ (List.mem_map_of_mem hq) _ (List.mem_map_of_mem hq₀)) (fun q hq => (hpairs q hq).2.1)
    (fun q hq => (hpairs q hq).2.2) fun q hq q' hq' => ?_
  obtain ⟨p, hp, he⟩ := (hpairs q hq).1
  obtain ⟨p', hp', he'⟩ := (hpairs q' hq').1
  rw [he, he']
  exact hid p hp p' hp'

end Forest

end Maf
