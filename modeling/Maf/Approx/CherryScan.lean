/-
# Looking for cherries in the counts

`findBothForestCherry`, `findT2Alone` and `activeSiblingPairIn` of
`src/Solver/Approximation/RedBlueDual.cpp` scan the counts of a view and walk down from
what they find.  The walks follow a child only when an active label reaches it, so they
end at the leaves of these labels and never at a missing child
(`finds_twoActiveUnder`, `finds_oneActiveUnder`).

Where every cut of the first tree lies off the active labels, each set of two or more of
them below a node has a cherry (`exists_cherry`), and the scans find one.
-/

import Maf.Approx.Queries

namespace Maf
namespace Approx
namespace RedBlue2

open MutableForestView
open ExceptState (Ends Finds)

variable {T : Side → Tree} {K : Side → Finset Ptr} {A : Finset Label} {s : RedBlue2} {v : Side}

section Walks

variable (hT : ∀ v, WellFormed [T v]) (hs : CleanAt T K A s)

include hs

/-- `readCount` finds the count of the index. -/
theorem finds_count {i : ℕ} : Finds (· = s) (readCount v i) (· = (s.view v).counts i) :=
  Ends.get_bind fun s' h => by
    subst h
    rw [if_pos (hs.1.fresh hs.2 v i)]
    exact Finds.pure rfl

/-- `activeChild` finds the child, if something active lies below it. -/
theorem finds_activeChild {o : Option ℕ} :
    Finds (· = s) (activeChild v o) fun cs => cs = (o.filter (0 < (s.view v).counts ·)).toList := by
  cases o with
  | none => exact Finds.pure rfl
  | some c =>
      refine (finds_count hs).bind fun n hn => Ends.ite (fun h => Finds.pure ?_) fun h => Finds.pure ?_
      · simp [Option.filter, hn ▸ h]
      · simp [Option.filter, hn ▸ h]

include hT

/-- The walk for two leaves is that of the other dual bound. -/
theorem finds_twoActiveLoop :
    ∀ (fuel : ℕ) (us : List Tree) (found : List Label), (∀ u ∈ us, u ∈ Forest.subtrees [T v]) →
    (us.map fun u => u.subtrees.length).sum ≤ fuel →
    Finds (· = s) (twoActiveLoop v fuel (us.map fun u => (s.view v).indexOf u.ptr) found) fun r =>
      r = twoLeavesLoop (s.view v) (fuel + 1) (us.map fun u => (s.view v).indexOf u.ptr) found := by
  have hcount := hs.counted hT v
  intro fuel
  induction fuel with
  | zero =>
      intro us found _ hsum
      cases us with
      | nil =>
          rw [List.map_nil, twoActiveLoop]
          exact Finds.pure rfl
      | cons u us =>
          have := List.length_pos_of_mem u.mem_subtrees_self
          simp only [List.map_cons, List.sum_cons] at hsum
          omega
  | succ fuel ih =>
      intro us found hus hsum
      cases us with
      | nil =>
          rw [List.map_nil, twoActiveLoop]
          exact Finds.pure rfl
      | cons u us =>
          have huF := hus u (List.mem_cons_self ..)
          have hrest := fun u hu => hus u (List.mem_cons_of_mem _ hu)
          simp only [List.map_cons, List.sum_cons] at hsum ⊢
          rw [twoActiveLoop, twoLeavesLoop]
          refine Ends.ite (fun hlt => Ends.get_bind fun s' h => ?_) fun hlt => ?_
          · subst h
            dsimp only
            rw [if_pos hlt, hcount.cutAt.labelOf_indexOf (hT v) huF]
            cases u with
            | leaf p l m =>
                have hlen : (Tree.leaf p l m).subtrees.length = 1 := rfl
                have hl₀ : leafLabel (.leaf p l m) ≠ 0 := (hT v).label_ne l (Forest.subset_labels
                  (Forest.mem_clusters_iff.2 ⟨_, huF, rfl⟩) (Finset.mem_singleton_self l))
                rw [if_pos hl₀, if_pos hl₀]
                exact ih us _ hrest (by omega)
            | node q l r =>
                obtain ⟨hlF, hrF⟩ := Forest.mem_subtrees_children huF
                have hlen : (Tree.node q l r).subtrees.length = l.subtrees.length + r.subtrees.length + 1 := by
                  simp [Tree.subtrees]
                have hl₀ : ¬leafLabel (.node q l r) ≠ 0 := fun hn => hn rfl
                have hconst : ∀ c, (pushed [T v] (K v) A c).map (fun _ => (s'.view v).indexOf c.ptr) =
                    (pushed [T v] (K v) A c).map fun u => (s'.view v).indexOf u.ptr := fun c =>
                  List.map_congr_left fun u hu => by rw [(mem_pushed hu).1]
                have hsize : ∀ c, ((pushed [T v] (K v) A c).map fun u => u.subtrees.length).sum ≤ c.subtrees.length :=
                  fun c => by unfold pushed; split_ifs <;> simp
                have h₁ := hsize l
                have h₂ := hsize r
                rw [if_neg hl₀, if_neg hl₀]
                refine (finds_activeChild hs).bind fun ls hls => (finds_activeChild hs).bind fun rs hrs => ?_
                rw [Tree.ptr_node, hcount.leftIdx (hT v) huF, map_toList_pushed, hconst] at hls
                rw [Tree.ptr_node, hcount.rightIdx (hT v) huF, map_toList_pushed, hconst] at hrs
                rw [Tree.ptr_node, hcount.leftIdx (hT v) huF, hcount.rightIdx (hT v) huF, map_toList_pushed,
                  map_toList_pushed, hconst, hconst, hls, hrs, ← List.map_append, ← List.map_append]
                refine ih _ found (fun u hu => ?_) ?_
                · rcases List.mem_append.1 hu with hu | hu
                  · rcases List.mem_append.1 hu with hu | hu
                    · exact (mem_pushed hu).1 ▸ hrF
                    · exact (mem_pushed hu).1 ▸ hlF
                  · exact hrest u hu
                · simp only [List.map_append, List.sum_append]
                  omega
          · rw [if_neg hlt]
            exact Finds.pure rfl

omit hs in
/-- **Below a node that two active labels reach** these two are found. -/
theorem finds_twoActiveUnder {u : Tree} (hu : u ∈ Forest.subtrees [T v]) (htwo : (activeAt T K A v u).card = 2) :
    Finds (CleanAt T K A) (twoActiveUnder v ((ofForest [T v]).indexOf u.ptr)) fun r =>
      r.1 ≠ r.2 ∧ activeAt T K A v u = {r.1, r.2} := by
  refine Finds.of_eq fun s hs => ?_
  have hcount := hs.counted hT v
  rw [← hcount.cutAt.indexOf]
  have hle := length_subtrees_le hcount.cutAt hu
  refine (finds_height (v := v) fun _ h => h ▸ hs.1).bind fun n hn => ?_
  rw [← hcount.cutAt.nodes] at hn
  subst hn
  refine (finds_twoActiveLoop hT hs _ [u] [] (by simpa using hu) (by simpa using hle)).bind fun r hr => Finds.pure ?_
  obtain ⟨a, b, hloop, hne, hreached⟩ := twoLeavesLoop_eq (hT v) hcount hu htwo (Nat.lt_succ_of_le hle)
  rw [hr, List.map_singleton, hloop]
  exact ⟨hne, hreached⟩

/-- Where one active label is left, the walk down ends at it. -/
theorem finds_oneActiveLoop : ∀ (fuel : ℕ) (u : Tree), u ∈ Forest.subtrees [T v] → (activeAt T K A v u).card = 1 →
    u.subtrees.length ≤ fuel →
    Finds (· = s) (oneActiveUnder v fuel ((s.view v).indexOf u.ptr)) fun x => activeAt T K A v u = {x} := by
  have hcount := hs.counted hT v
  intro fuel
  induction fuel with
  | zero =>
      intro u _ _ hle
      have := List.length_pos_of_mem u.mem_subtrees_self
      omega
  | succ fuel ih =>
      intro u hu hone hle
      refine Ends.get_bind fun s' h => ?_
      subst h
      dsimp only
      rw [hcount.cutAt.labelOf_indexOf (hT v) hu]
      cases u with
      | leaf p l m =>
          have hl₀ : leafLabel (.leaf p l m) ≠ 0 := (hT v).label_ne l (Forest.subset_labels
            (Forest.mem_clusters_iff.2 ⟨_, hu, rfl⟩) (Finset.mem_singleton_self l))
          rw [if_neg hl₀]
          refine Finds.pure ?_
          obtain ⟨x, hx⟩ := Finset.card_eq_one.1 hone
          have := reached_subset (show x ∈ activeAt T K A v (.leaf p l m) by rw [hx]; exact Finset.mem_singleton_self x)
          rw [hx, Finset.mem_singleton.1 this]
          rfl
      | node q l r =>
          obtain ⟨hlF, hrF⟩ := Forest.mem_subtrees_children hu
          have hlen : (Tree.node q l r).subtrees.length = l.subtrees.length + r.subtrees.length + 1 := by
            simp [Tree.subtrees]
          have hcard : (activeAt T K A v (.node q l r)).card = _ := card_reached_node (hT v) hcount.cutAt hu
          have hunion := reached_node (A := A) (hT v) hcount.cutAt hu
          rw [if_pos (show leafLabel (.node q l r) = 0 from rfl)]
          refine (finds_activeChild hs).bind fun cs hcs => ?_
          rw [Tree.ptr_node, hcount.leftIdx (hT v) hu] at hcs
          by_cases hl : 0 < (seen [T v] (K v) A l).card
          · rw [if_pos hl] at hcs
            subst hcs
            have hlK : l.ptr ∉ K v := fun hK => by simp [seen, hK] at hl
            have hr₀ : seen [T v] (K v) A r = ∅ := Finset.card_eq_zero.1 (by omega)
            have heq : activeAt T K A v (.node q l r) = activeAt T K A v l := by
              rw [activeAt, hunion, hr₀, Finset.union_empty, seen, if_neg hlK]
            rw [heq] at hone ⊢
            exact ih l hlF hone (by omega)
          · rw [if_neg hl] at hcs
            subst hcs
            have hl₀ : seen [T v] (K v) A l = ∅ := Finset.card_eq_zero.1 (by omega)
            have hr : 0 < (seen [T v] (K v) A r).card := by omega
            have hrK : r.ptr ∉ K v := fun hK => by simp [seen, hK] at hr
            have heq : activeAt T K A v (.node q l r) = activeAt T K A v r := by
              rw [activeAt, hunion, hl₀, Finset.empty_union, seen, if_neg hrK]
            have hidx : (s'.view v).rightIdx ((s'.view v).indexOf (Tree.node q l r).ptr) =
                some ((s'.view v).indexOf r.ptr) := by
              have := hcount.rightIdx (hT v) hu
              rw [if_pos hr] at this
              exact (Option.filter_eq_some_iff.1 this).1
            refine (finds_access hidx).bind fun i hi => ?_
            subst hi
            rw [heq] at hone ⊢
            exact ih r hrF hone (by omega)

omit hs in
/-- **Below a node that one active label reaches** this one is found: a child without
active labels is left out, and then the other one is there. -/
theorem finds_oneActiveUnder {u : Tree} (hu : u ∈ Forest.subtrees [T v]) (hone : (activeAt T K A v u).card = 1) :
    Finds (CleanAt T K A) (do oneActiveUnder v (← height v) ((ofForest [T v]).indexOf u.ptr)) fun x =>
      activeAt T K A v u = {x} := by
  refine Finds.of_eq fun s hs => (finds_height (v := v) fun _ h => h ▸ hs.1).bind fun n hn => ?_
  have hcut := hs.1.cutAt v
  rw [← hcut.nodes] at hn
  rw [← hcut.indexOf]
  exact finds_oneActiveLoop hT hs n u hu hone (hn ▸ length_subtrees_le hcut hu)

end Walks

/-! Cherries. -/

/-- A lowest node of the first tree that two active labels reach. -/
def Cherry (T : Side → Tree) (K : Side → Finset Ptr) (A : Finset Label) (u : Tree) : Prop :=
  (activeAt T K A .t1 u).card = 2 ∧ ∃ q l r, u = .node q l r ∧ (seen [T .t1] (K .t1) A l).card < 2 ∧
    (seen [T .t1] (K .t1) A r).card < 2

/-- The cuts of the first tree lie off the labels `A`. -/
def Clear (T : Side → Tree) (K : Side → Finset Ptr) (A : Finset Label) : Prop :=
  ∀ Y ∈ cutClusters [T .t1] (K .t1), Disjoint Y A

/-- In the first tree the active labels below a node are those among its labels. -/
theorem Clear.activeAt_eq (h : Clear T K A) (u : Tree) : activeAt T K A .t1 u = u.labels ∩ A := by
  ext x
  rw [mem_reached, Finset.mem_inter, and_comm]
  exact ⟨fun hx => ⟨hx.1.1, hx.2⟩,
    fun hx => ⟨⟨hx.1, fun Y hY hxY => absurd hx.2 (Finset.disjoint_left.1 (h Y hY) hxY)⟩, hx.2⟩⟩

/-- What is counted below a node of the first tree is active and lies below it. -/
theorem Clear.seen_subset (h : Clear T K A) (u : Tree) : seen [T .t1] (K .t1) A u ⊆ u.labels ∩ A := by
  unfold seen
  split_ifs
  · exact Finset.empty_subset _
  · exact (h.activeAt_eq u).subset

/-- **Two active labels below a node of the first tree make a cherry below it.** -/
theorem exists_cherry (h : Clear T K A) : ∀ w : Tree, 2 ≤ (w.labels ∩ A).card → ∃ u ∈ w.subtrees, Cherry T K A u := by
  intro w
  induction w with
  | leaf p l m =>
      intro htwo
      have : ((Tree.leaf p l m).labels ∩ A).card ≤ 1 :=
        (Finset.card_le_card Finset.inter_subset_left).trans (Finset.card_singleton l).le
      omega
  | node q l r ihl ihr =>
      intro htwo
      by_cases hl : 2 ≤ (l.labels ∩ A).card
      · obtain ⟨u, hu, hch⟩ := ihl hl
        exact ⟨u, Tree.mem_subtrees_node.2 (Or.inr (Or.inl hu)), hch⟩
      by_cases hr : 2 ≤ (r.labels ∩ A).card
      · obtain ⟨u, hu, hch⟩ := ihr hr
        exact ⟨u, Tree.mem_subtrees_node.2 (Or.inr (Or.inr hu)), hch⟩
      have hle : ((Tree.node q l r).labels ∩ A).card ≤ (l.labels ∩ A).card + (r.labels ∩ A).card := by
        rw [Tree.labels, Finset.union_inter_distrib_right]
        exact Finset.card_union_le _ _
      have hsl := Finset.card_le_card (h.seen_subset l)
      have hsr := Finset.card_le_card (h.seen_subset r)
      refine ⟨_, Tree.mem_subtrees_self _, ?_, q, l, r, rfl, by omega, by omega⟩
      rw [h.activeAt_eq]
      omega

section Scans

variable (hT : ∀ v, WellFormed [T v])

include hT

/-- The counts at the two children of a node. -/
theorem CleanAt.countAt_left (hs : CleanAt T K A s) {q : Ptr} {l r : Tree}
    (hq : Tree.node q l r ∈ Forest.subtrees [T v]) :
    (s.view v).countAt ((s.view v).leftIdx ((s.view v).indexOf q)) = (seen [T v] (K v) A l).card ∧
      (s.view v).countAt ((s.view v).rightIdx ((s.view v).indexOf q)) = (seen [T v] (K v) A r).card := by
  have hcount := hs.counted hT v
  have hmem : q ∈ (s.view v).nodes := hcount.cutAt.nodes ▸ mem_nodes.2 ⟨_, hq, rfl⟩
  obtain ⟨hl, hr⟩ := Forest.mem_subtrees_children hq
  have key : ∀ c ∈ Forest.subtrees [T v], (s.view v).countAt (((some c.ptr).filter (· ∉ K v)).map (s.view v).indexOf) =
      (seen [T v] (K v) A c).card := fun c hc => by
    by_cases hK : c.ptr ∈ K v
    · simp [Option.filter, seen, hK, MutableForestView.countAt]
    · have := hcount.count c hc
      rw [MutableForestView.count] at this
      simp [Option.filter, seen, hK, MutableForestView.countAt, this]
  constructor
  · rw [hcount.cutAt.leftIdx, getElem?_nodes_indexOf (hT v) hcount.cutAt hmem, Option.bind_some, hcount.cutAt.leftChild,
      (leftChild_ofForest (hT v)).2 ⟨l, r, hq, rfl⟩, key l hl]
  · rw [hcount.cutAt.rightIdx, getElem?_nodes_indexOf (hT v) hcount.cutAt hmem, Option.bind_some,
      hcount.cutAt.rightChild, (rightChild_ofForest (hT v)).2 ⟨l, r, hq, rfl⟩, key r hr]

omit hT in
/-- `countAt` finds the count of an index that may be missing. -/
theorem finds_countAt (hs : CleanAt T K A s) {o : Option ℕ} :
    Finds (· = s) (countAt v o) (· = (s.view v).countAt o) := by
  cases o with
  | none => exact Finds.pure rfl
  | some c => exact finds_count hs

/-- `isCherry` tells the cherries of the first tree. -/
theorem finds_isCherry {u : Tree} (hu : u ∈ Forest.subtrees [T .t1]) :
    Finds (CleanAt T K A) (isCherry ((ofForest [T .t1]).indexOf u.ptr)) fun b => (b = true ↔ Cherry T K A u) := by
  refine Finds.of_eq fun s hs => ?_
  have hcount := hs.counted hT .t1
  rw [← hcount.cutAt.indexOf]
  refine Ends.get_bind fun s' h => ?_
  subst h
  dsimp only
  rw [hcount.cutAt.labelOf_indexOf (hT .t1) hu]
  cases u with
  | leaf p l m =>
      have hl₀ : leafLabel (.leaf p l m) ≠ 0 := (hT .t1).label_ne l (Forest.subset_labels
        (Forest.mem_clusters_iff.2 ⟨_, hu, rfl⟩) (Finset.mem_singleton_self l))
      rw [if_pos hl₀]
      exact Finds.pure (iff_of_false Bool.false_ne_true fun ⟨_, _, _, _, h, _⟩ => nomatch h)
  | node q l r =>
      have hread := finds_readCount hT hs hu
      obtain ⟨hleft, hright⟩ := hs.countAt_left hT hu
      rw [if_neg (show ¬leafLabel (.node q l r) ≠ 0 from fun hn => hn rfl)]
      have hno : ∀ {p : Prop}, ¬p → (Cherry T K A (.node q l r) → p) →
          Finds (· = s') (pure false : Run Bool) fun b => (b = true ↔ Cherry T K A (.node q l r)) := fun hp h =>
        Finds.pure (iff_of_false Bool.false_ne_true fun hch => hp (h hch))
      refine hread.bind fun n hn => Ends.ite (fun h => hno (hn ▸ h) And.left) fun h => ?_
      refine (finds_countAt hs).bind fun nl hnl => Ends.ite (fun h' => ?_) fun h' => ?_
      · refine hno (not_lt.2 (show 2 ≤ (seen [T .t1] (K .t1) A l).card from hleft ▸ hnl ▸ h')) ?_
        rintro ⟨-, q', l', r', he, hl, -⟩
        cases he
        exact hl
      refine (finds_countAt hs).bind fun nr hnr => Ends.ite (fun h'' => ?_) fun h'' => ?_
      · refine hno (not_lt.2 (show 2 ≤ (seen [T .t1] (K .t1) A r).card from hright ▸ hnr ▸ h'')) ?_
        rintro ⟨-, q', l', r', he, -, hr⟩
        cases he
        exact hr
      · refine Finds.pure (iff_of_true rfl ⟨hn ▸ not_not.1 h, q, l, r, rfl, ?_, ?_⟩)
        · exact hleft ▸ hnl ▸ not_le.1 h'
        · exact hright ▸ hnr ▸ not_le.1 h''

/-- What a scan over the nodes `D` finds: a cherry that passes the test, if there is one. -/
def ScanFinds (T : Side → Tree) (K : Side → Finset Ptr) (A : Finset Label) (P : Label → Label → Prop) (D : Tree → Prop)
    (found : Label × Label) : Prop :=
  (found = (0, 0) ∧ ∀ u ∈ Forest.subtrees [T .t1], D u → Cherry T K A u →
      ∃ x y, x ≠ y ∧ activeAt T K A .t1 u = {x, y} ∧ ¬P x y) ∨
    ∃ u ∈ Forest.subtrees [T .t1], found.1 ≠ found.2 ∧ activeAt T K A .t1 u = {found.1, found.2} ∧ P found.1 found.2

/-- The scan finds the first cherry whose labels pass the test. -/
theorem finds_scanCherries {P : Label → Label → Prop} {test : Label → Label → Run Bool}
    (htest : ∀ x ∈ A, ∀ y ∈ A, x ≠ y → Finds (CleanAt T K A) (test x y) fun b => (b = true ↔ P x y)) :
    ∀ is : List ℕ, (∀ i ∈ is, i < (ofForest [T .t1]).nodes.length) → Finds (CleanAt T K A) (scanCherries test is)
      (ScanFinds T K A P fun u => (ofForest [T .t1]).indexOf u.ptr ∈ is) := by
  intro is
  induction is with
  | nil => exact fun _ => Finds.pure (Or.inl ⟨rfl, fun _ _ h => absurd h List.not_mem_nil⟩)
  | cons i is ih =>
      intro his
      have ih := ih fun j hj => his j (List.mem_cons_of_mem _ hj)
      have hrest : (∀ u ∈ Forest.subtrees [T .t1], (ofForest [T .t1]).indexOf u.ptr = i → Cherry T K A u →
            ∃ x y, x ≠ y ∧ activeAt T K A .t1 u = {x, y} ∧ ¬P x y) →
          Finds (CleanAt T K A) (scanCherries test is)
            (ScanFinds T K A P fun u => (ofForest [T .t1]).indexOf u.ptr ∈ i :: is) := fun hi =>
        ih.imp fun found hfound => hfound.imp (fun ⟨h, hall⟩ => ⟨h, fun u hu hmem =>
          (List.mem_cons.1 hmem).elim (hi u hu) (hall u hu)⟩) fun h => h
      obtain ⟨u, hu, hi⟩ := (cutAt_ofForest [T .t1]).exists_of_lt (hT .t1) (his i (List.mem_cons_self ..))
      have hone : ∀ w ∈ Forest.subtrees [T .t1], (ofForest [T .t1]).indexOf w.ptr = i → w = u := fun w hw h =>
        Forest.eq_of_ptr_eq (hT .t1).nodup hw hu (indexOf_inj (mem_nodes.2 ⟨w, hw, rfl⟩) (h.trans hi))
      subst hi
      refine (finds_isCherry hT hu).bind fun b hb => Ends.ite (fun h => ?_) fun h => ?_
      · refine (finds_twoActiveUnder hT hu (hb.1 h).1).bind fun r ⟨hne, hr⟩ => ?_
        have hmem : ∀ {z}, z ∈ ({r.1, r.2} : Finset Label) → z ∈ A := fun hz => (mem_reached.1 (hr ▸ hz)).1
        refine (htest r.1 (hmem (by simp)) r.2 (hmem (by simp)) hne).bind fun c hc => Ends.ite (fun h' => ?_)
          fun h' => ?_
        · exact Finds.pure (Or.inr ⟨u, hu, hne, hr, hc.1 h'⟩)
        · exact hrest fun w hw hwi _ => hone w hw hwi ▸ ⟨r.1, r.2, hne, hr, fun hP => h' (hc.2 hP)⟩
      · exact hrest fun w hw hwi hch => absurd (hb.2 (hone w hw hwi ▸ hch)) h

/-- A scan of the whole view. -/
theorem finds_cherry {P : Label → Label → Prop} {test : Label → Label → Run Bool}
    (htest : ∀ x ∈ A, ∀ y ∈ A, x ≠ y → Finds (CleanAt T K A) (test x y) fun b => (b = true ↔ P x y)) :
    Finds (At T K A) (do
      ensureCounts
      scanCherries test (List.range (← height .t1))) (ScanFinds T K A P fun _ => True) := by
  have hscan : Finds (CleanAt T K A) (do scanCherries test (List.range (← height .t1)))
      (ScanFinds T K A P fun _ => True) :=
    (finds_height fun _ h => h.1).bind fun n hn => by
      subst hn
      refine (finds_scanCherries hT htest _ fun i hi => List.mem_range.1 hi).imp fun found hfound => ?_
      exact hfound.imp (fun ⟨h, hall⟩ => ⟨h, fun u hu _ => hall u hu (List.mem_range.2 (index_lt hu))⟩) fun h => h
  exact Ends.bind ends_ensure fun _ => Ends.conseq hscan (fun _ h => h) fun _ _ h => ⟨h.1.1, h.2⟩

/-- **`findBothForestCherry`**: a cherry of the first tree that is one of the second. -/
theorem finds_findBothForestCherry (hA : A ⊆ (T .t2).labels) :
    Finds (At T K A) findBothForestCherry
      (ScanFinds T K A (fun x y => ∃ u ∈ Forest.subtrees [T .t2], activeAt T K A .t2 u = {x, y}) fun _ => True) :=
  finds_cherry hT fun _ hx _ hy hxy => finds_activeSiblings hT steady_cleanAt hx hy hA hxy

/-- **`activeSiblingPairIn`**: a cherry with both labels in the list. -/
theorem finds_activeSiblingPairIn (S : List Label) :
    Finds (At T K A) (activeSiblingPairIn S) (ScanFinds T K A (fun x y => x ∈ S ∧ y ∈ S) fun _ => True) :=
  finds_cherry hT fun _ _ _ _ _ => Finds.pure decide_eq_true_iff

end Scans

/-! Leaves alone in their component. -/

/-- A node that is no child any more. -/
def IsRoot (T : Side → Tree) (K : Side → Finset Ptr) (v : Side) (u : Tree) : Prop :=
  u.ptr ∈ K v ∨ (ofForest [T v]).parent u.ptr = none

/-- Every label reaches a root. -/
theorem exists_isRoot (hT : ∀ v, WellFormed [T v]) (h : At T K A s) {x : Label} (hx : x ∈ (T v).labels) :
    ∃ u ∈ Forest.subtrees [T v], IsRoot T K v u ∧ Reaches (cutClusters [T v] (K v)) x u.labels := by
  have hcut := h.cutAt v
  obtain ⟨p, m, hleaf⟩ := Forest.exists_leaf (mem_forest_labels.2 hx)
  obtain ⟨ht, hg, hle⟩ := hcut.exists_grounded (hT v)
  obtain ⟨hanc, hroot⟩ := ParentWalk.rootOf_spec hg _ p (hle p (hcut.nodes ▸ mem_nodes.2 ⟨_, hleaf, rfl⟩))
  obtain ⟨u, hu, hup⟩ := hcut.exists_of_anc (hT v) hleaf hanc
  rw [← hup] at hanc hroot
  refine ⟨u, hu, ?_, (anc_leaf_iff (hT v) hcut hleaf hu).1 hanc⟩
  rw [hcut.parent] at hroot
  by_cases hK : u.ptr ∈ K v
  · exact Or.inl hK
  · exact Or.inr (by rwa [if_neg hK] at hroot)

section Alone

variable (hT : ∀ v, WellFormed [T v])

include hT

/-- The scan finds a label that is alone in its tree, if there is one among the indices. -/
theorem finds_scanAlone : ∀ is : List ℕ, (∀ i ∈ is, i < (ofForest [T .t2]).nodes.length) →
    Finds (CleanAt T K A) (scanAlone is) fun w => w ∈ A ∨ w = 0 ∧ ∀ u ∈ Forest.subtrees [T .t2],
      (ofForest [T .t2]).indexOf u.ptr ∈ is → IsRoot T K .t2 u → (activeAt T K A .t2 u).card ≠ 1 := by
  intro is
  induction is with
  | nil => exact fun _ => Finds.pure (Or.inr ⟨rfl, fun _ _ h => absurd h List.not_mem_nil⟩)
  | cons i is ih =>
      intro his
      have ih := ih fun j hj => his j (List.mem_cons_of_mem _ hj)
      obtain ⟨u, hu, hi⟩ := (cutAt_ofForest [T .t2]).exists_of_lt (hT .t2) (his i (List.mem_cons_self ..))
      have hone : ∀ w ∈ Forest.subtrees [T .t2], (ofForest [T .t2]).indexOf w.ptr = i → w = u := fun w hw h =>
        Forest.eq_of_ptr_eq (hT .t2).nodup hw hu (indexOf_inj (mem_nodes.2 ⟨w, hw, rfl⟩) (h.trans hi))
      have hrest : (IsRoot T K .t2 u → (activeAt T K A .t2 u).card ≠ 1) →
          Finds (CleanAt T K A) (scanAlone is) fun w => w ∈ A ∨ w = 0 ∧ ∀ u ∈ Forest.subtrees [T .t2],
            (ofForest [T .t2]).indexOf u.ptr ∈ i :: is →
            IsRoot T K .t2 u → (activeAt T K A .t2 u).card ≠ 1 := fun hroot =>
        ih.imp fun found => Or.imp_right fun ⟨h, hall⟩ => ⟨h, fun w hw hmem =>
          (List.mem_cons.1 hmem).elim (fun hwi => hone w hw hwi ▸ hroot) (hall w hw)⟩
      subst hi
      refine Ends.get_bind fun s hs => ?_
      have hcut := hs.1.cutAt .t2
      have hmem : u.ptr ∈ (s.view .t2).nodes := hcut.nodes ▸ mem_nodes.2 ⟨u, hu, rfl⟩
      have hroot : (s.view .t2).parentIdx ((ofForest [T .t2]).indexOf u.ptr) = none ↔ IsRoot T K .t2 u := by
        rw [← hcut.indexOf, hcut.parentIdx_indexOf (hT .t2) hmem, Option.map_eq_none_iff, hcut.parent, IsRoot]
        split_ifs with hK <;> simp [hK]
      refine Ends.conseq (P := CleanAt T K A)
        (Ends.ite (fun hpar => ?_) fun hpar => hrest fun h => absurd (hroot.2 h) hpar)
        (fun _ h => h ▸ hs) fun _ _ h => h
      have hread : Finds (CleanAt T K A) (readCount .t2 ((ofForest [T .t2]).indexOf u.ptr)) fun n =>
          n = (activeAt T K A .t2 u).card := Finds.of_eq fun s hs => by
        rw [← (hs.1.cutAt .t2).indexOf]
        exact finds_readCount hT hs hu
      refine hread.bind fun n hn => Ends.ite (fun h => ?_) fun h => hrest fun _ => hn ▸ h
      refine (finds_oneActiveUnder hT hu (hn ▸ h)).imp fun x hx => Or.inl ?_
      exact (mem_reached.1 (show x ∈ activeAt T K A .t2 u by rw [hx]; exact Finset.mem_singleton_self x)).1

/-- **`findT2Alone`**: an active label that alone reaches the root of its component. -/
theorem finds_findT2Alone : Finds (At T K A) findT2Alone fun w => w ∈ A ∨ w = 0 ∧ (2 ≤ A.card →
    ∀ u ∈ Forest.subtrees [T .t2], IsRoot T K .t2 u → (activeAt T K A .t2 u).card ≠ 1) := by
  refine Ends.get_bind fun s hs => ?_
  rw [hs.active]
  refine Ends.conseq (P := At T K A) (Ends.ite (fun h => Finds.pure (Or.inr ⟨rfl, fun h' => by omega⟩)) fun h => ?_)
    (fun _ h => h ▸ hs) fun _ _ h => h
  refine Ends.bind ends_ensure fun _ => Ends.conseq ((finds_height (v := .t2) fun _ h => h.1).bind fun n hn => ?_)
    (fun _ h => h) fun _ _ h => h
  subst hn
  refine Ends.conseq (finds_scanAlone hT _ fun i hi => List.mem_range.1 hi) (fun _ h => h) fun w s h => ⟨h.1.1, ?_⟩
  exact h.2.imp_right fun ⟨h₀, hall⟩ => ⟨h₀, fun _ u hu => hall u hu (List.mem_range.2 (index_lt hu))⟩

/-- **When neither search finds anything there are not just two active labels**: they
would be a cherry of the first tree, so in different components of the second. -/
theorem card_ne_two (h : At T K A s) (hclear : Clear T K A)
    (hboth : ∀ u ∈ Forest.subtrees [T .t1], Cherry T K A u →
      ∃ x y, x ≠ y ∧ activeAt T K A .t1 u = {x, y} ∧ ¬∃ w ∈ Forest.subtrees [T .t2], activeAt T K A .t2 w = {x, y})
    (halone : 2 ≤ A.card → ∀ u ∈ Forest.subtrees [T .t2], IsRoot T K .t2 u → (activeAt T K A .t2 u).card ≠ 1) :
    A.card ≠ 2 := by
  intro htwo
  have hsub : ∀ v u, activeAt T K A v u ⊆ A := fun v u => Finset.filter_subset _ _
  obtain ⟨u, hu, hch⟩ := exists_cherry hclear (T .t1) (by rw [Finset.inter_eq_right.2 (h.subset .t1), htwo])
  obtain ⟨x, y, hxy, hux, hapart⟩ := hboth u (Forest.mem_subtrees.2 ⟨_, List.mem_singleton_self _, hu⟩) hch
  have hA : A = {x, y} := by
    rw [← hux]
    exact (Finset.eq_of_subset_of_card_le (hsub .t1 u) (by rw [htwo, hch.1])).symm
  have hx : x ∈ A := hA ▸ Finset.mem_insert_self x _
  obtain ⟨w, hw, hroot, hxw⟩ := exists_isRoot (v := .t2) hT h (h.subset .t2 hx)
  have hxmem : x ∈ activeAt T K A .t2 w := mem_reached.2 ⟨hx, hxw⟩
  have hle := Finset.card_le_card (hsub .t2 w)
  have hpos := Finset.card_pos.2 ⟨x, hxmem⟩
  have hne := halone htwo.ge w hw hroot
  exact hapart ⟨w, hw, hA ▸ Finset.eq_of_subset_of_card_le (hsub .t2 w) (by omega)⟩

end Alone

end RedBlue2
end Approx
end Maf
