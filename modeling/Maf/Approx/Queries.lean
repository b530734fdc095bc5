/-
# What the queries of the pass find

The queries of `src/Solver/Approximation/RedBlueDual.cpp` in a state whose views are those
of two trees after some cuts (`At`): each of them ends, throws nothing and leaves the
forests and the active leaves as they are.  The answers are stated about the sets
`reached` of active labels that still reach a node.

A walk up is bounded by the number of its node, which falls at every step, and a walk down
by the size of the subtree.
-/

import Maf.Approx.FreshCounts
import Maf.Approx.ThreeApproxDual

namespace Maf
namespace Approx
namespace RedBlue2

open ParentWalk (Anc IsLca)
open MutableForestView
open ExceptState (Ends Finds)

/-- **A state of the pass** over the trees `T`, with the edges above `K` cut and the labels
`A` active. -/
structure At (T : Side → Tree) (K : Side → Finset Ptr) (A : Finset Label) (s : RedBlue2) : Prop where
  cutAt : ∀ v, CutAt [T v] (K v) (s.view v)
  active : s.active = A
  subset : ∀ v, A ⊆ (T v).labels
  t1o : s.t1o = original (T .t1)
  t2o : s.t2o = original (T .t2)
  fresh : s.countsDirty = false → ∀ v, s.Fresh v

/-- The same, with counts that may be read. -/
def CleanAt (T : Side → Tree) (K : Side → Finset Ptr) (A : Finset Label) (s : RedBlue2) : Prop :=
  At T K A s ∧ s.countsDirty = false

/-- The active labels that reach a node. -/
abbrev activeAt (T : Side → Tree) (K : Side → Finset Ptr) (A : Finset Label) (v : Side) (u : Tree) : Finset Label :=
  reached (cutClusters [T v] (K v)) A u.labels

variable {T : Side → Tree} {K : Side → Finset Ptr} {A : Finset Label} {s : RedBlue2} {v : Side}

/-- The labels of a forest of one tree are those of the tree. -/
@[simp] theorem mem_forest_labels {t : Tree} {x : Label} : x ∈ Forest.labels [t] ↔ x ∈ t.labels := by
  simp [Forest.labels]

/-- A label still reaches a node whose labels are `X`. -/
def Reaches (C : Finset (Finset Label)) (x : Label) (X : Finset Label) : Prop := x ∈ X ∧ ∀ Y ∈ C, x ∈ Y → X ⊆ Y

/-- What is reached is active and reaches the cluster. -/
theorem mem_reached {C : Finset (Finset Label)} {x : Label} {X : Finset Label} :
    x ∈ reached C A X ↔ x ∈ A ∧ Reaches C x X := Finset.mem_filter

/-- Labels that reach one node are in one component. -/
theorem comp_eq_of_reaches {C : Finset (Finset Label)} {x y : Label} {X : Finset Label} (hx : Reaches C x X)
    (hy : Reaches C y X) : comp C x = comp C y :=
  comp_eq_iff.2 fun Y hY => ⟨fun h => hx.2 Y hY h hy.1, fun h => hy.2 Y hY h hx.1⟩

/-- Below a node that a label reaches, whatever reaches a lower one reaches it too. -/
theorem Reaches.mono {C : Finset (Finset Label)} {x y : Label} {X Z : Finset Label} (hy : Reaches C y X)
    (hx : Reaches C x X) (hxZ : Reaches C x Z) (hXZ : X ⊆ Z) : Reaches C y Z :=
  ⟨hXZ hy.1, fun Y hY hyY => hxZ.2 Y hY (hy.2 Y hY hyY hx.1)⟩

/-- A leaf reaches a node in the view when its label reaches the labels of the node. -/
theorem anc_leaf_iff {F : Forest} {K : Finset Ptr} {w : MutableForestView} (hF : WellFormed F) (h : CutAt F K w)
    {p : Ptr} {x : Label} {m : Finset Label} {u : Tree} (hp : Tree.leaf p x m ∈ F.subtrees) (hu : u ∈ F.subtrees) :
    Anc w.parent p u.ptr ↔ Reaches (cutClusters F K) x u.labels := by
  rw [show p = (Tree.leaf p x m).ptr from rfl, h.anc_iff hF hp hu, Reaches]
  simp

/-! What the operations keep. -/

/-- A label is deactivated. -/
theorem At.deactivate (h : At T K A s) (u : Label) :
    At T K (A.erase u) { s with active := s.active.erase u, countsDirty := true } where
  cutAt v := by cases v <;> exact h.cutAt _
  active := h.active ▸ rfl
  subset v := (Finset.erase_subset u A).trans (h.subset v)
  t1o := h.t1o
  t2o := h.t2o
  fresh := nofun

/-- An edge is cut. -/
theorem At.cutEdge (hT : ∀ v, WellFormed [T v]) (h : At T K A s) {u : Tree} (hu : u ∈ Forest.subtrees [T v]) :
    At T (Function.update K v (insert u.ptr (K v))) A
      { s.setView ((s.view v).cut u.ptr) v with countsDirty := true } where
  cutAt w := by
    have hcut := (h.cutAt v).cut (hT v) (mem_nodes.2 ⟨u, hu, rfl⟩)
    have hsame := h.cutAt w
    cases v <;> cases w
    · rw [Function.update_self]
      exact hcut
    · rw [Function.update_of_ne (by decide)]
      exact hsame
    · rw [Function.update_of_ne (by decide)]
      exact hsame
    · rw [Function.update_self]
      exact hcut
  active := by cases v <;> exact h.active
  subset := h.subset
  t1o := by cases v <;> exact h.t1o
  t2o := by cases v <;> exact h.t2o
  fresh := nofun

/-- The sum and the flag are not part of the invariant. -/
theorem At.credit (h : At T K A s) (d : ℤ) (b : Bool) : At T K A { s with dualSum := d, sawStar := b } where
  cutAt v := by cases v <;> exact h.cutAt _
  active := h.active
  subset := h.subset
  t1o := h.t1o
  t2o := h.t2o
  fresh hclean v := by
    have := h.fresh hclean v
    cases v <;> exact this

/-- Refreshed counts are clean. -/
theorem At.ensure (h : At T K A s) :
    CleanAt T K A { s with
      t1 := s.t1.refreshCounts s.active, t2 := s.t2.refreshCounts s.active,
      countsDirty := false } where
  left :=
    { cutAt := fun v => by cases v <;> exact (h.cutAt _).refreshCounts _
      active := h.active
      subset := h.subset
      t1o := h.t1o
      t2o := h.t2o
      fresh := fun _ v => by cases v <;> exact fun _ => rfl }
  right := rfl

/-- Counts that may be read are the numbers of labels that reach the nodes. -/
theorem CleanAt.counted (hT : ∀ v, WellFormed [T v]) (h : CleanAt T K A s) (v : Side) :
    Counted [T v] (K v) A (s.view v) := by
  refine ⟨h.1.cutAt v, fun u hu => ?_⟩
  rw [← (h.1.cutAt v).count_eq (hT v) hu, ← h.1.active]
  exact h.1.fresh h.2 v _

/-- `ensureCounts` leaves clean counts. -/
theorem ends_ensure : Ends (fun _ => False) (At T K A) ensureCounts fun _ => CleanAt T K A :=
  Ends.modify fun s hs => by
    split_ifs with hdirty
    · exact hs.ensure
    · exact ⟨hs, Bool.eq_false_iff.2 hdirty⟩

/-- An access that succeeds. -/
theorem finds_access {I : RedBlue2 → Prop} {α : Type} {o : Option α} {a : α} (h : o = some a) :
    Finds I (access o) (· = a) := by
  subst h
  exact Finds.pure rfl

/-! Queries that read no counts. -/

section Queries

variable (hT : ∀ v, WellFormed [T v]) {I : RedBlue2 → Prop} (hI : ∀ s, I s → At T K A s)

include hT hI

/-- `node` finds the leaf of a label. -/
theorem finds_node {x : Label} (hx : x ∈ (T v).labels) :
    Finds I (node v x) fun p => ∃ m, Tree.leaf p x m ∈ Forest.subtrees [T v] :=
  Ends.get_bind fun s hs => by
    obtain ⟨p, m, hleaf⟩ := Forest.exists_leaf (mem_forest_labels.2 hx)
    rw [(((hI s hs).cutAt v).nodeOf_eq (hT v)).2 ⟨m, hleaf⟩]
    exact Ends.pure fun _ h => ⟨h ▸ hs, m, hleaf⟩

omit hI in
/-- `rootOfLeaf` climbs from the leaf of the label. -/
theorem finds_rootOfLeaf_eq (hs : At T K A s) {x : Label} (hx : x ∈ (T v).labels) :
    Finds (· = s) (rootOfLeaf v x) fun r => ∃ p, (s.view v).nodeOf x = some p ∧ r = (s.view v).rootOf p :=
  (finds_node hT (fun _ h => h ▸ hs) hx).bind fun p ⟨m, hleaf⟩ => Ends.get_bind fun s' hs' => Ends.pure fun _ h => by
    subst hs'
    exact ⟨h, p, ((hs.cutAt v).nodeOf_eq (hT v)).2 ⟨m, hleaf⟩, rfl⟩

/-- The root of a leaf. -/
theorem finds_rootOfLeaf {x : Label} (hx : x ∈ (T v).labels) :
    Finds I (rootOfLeaf v x) fun r => ∃ u ∈ Forest.subtrees [T v], u.ptr = r ∧ x ∈ u.labels ∧
      ∀ Y ∈ cutClusters [T v] (K v), x ∈ Y → u.labels ⊆ Y := by
  refine Finds.of_eq fun s hs => (finds_rootOfLeaf_eq hT (hI s hs) hx).imp ?_
  rintro r ⟨p, hp, rfl⟩
  have hcut := (hI s hs).cutAt v
  obtain ⟨m, hleaf⟩ := (hcut.nodeOf_eq (hT v)).1 hp
  obtain ⟨u, hu, hroot, hxu, hK, -⟩ := hcut.rootOf_spec (hT v) hleaf
  exact ⟨u, hu, hroot.symm, by simpa using hxu, by simpa using hK⟩

/-- `sameTree` tells whether two labels are in one component. -/
theorem finds_sameTree {x y : Label} (hx : x ∈ (T v).labels) (hy : y ∈ (T v).labels) :
    Finds I (sameTree v x y) fun r =>
      (r = true ↔ comp (cutClusters [T v] (K v)) x = comp (cutClusters [T v] (K v)) y) := by
  refine Finds.of_eq fun s hs => (finds_rootOfLeaf_eq hT (hI s hs) hx).bind fun r ⟨p, hp, hr⟩ =>
    (finds_rootOfLeaf_eq hT (hI s hs) hy).bind fun r' ⟨q, hq, hr'⟩ => Finds.pure ?_
  rw [decide_eq_true_iff, hr, hr']
  exact ((hI s hs).cutAt v).root_eq_iff (hT v) hp hq

/-- The lowest node that two labels reach. -/
theorem finds_lcaLeaves {x y : Label} (hx : x ∈ (T v).labels) (hy : y ∈ (T v).labels) :
    Finds I (lcaLeaves v x y) fun r =>
      (r = none → comp (cutClusters [T v] (K v)) x ≠ comp (cutClusters [T v] (K v)) y) ∧
      ∀ m, r = some m → ∃ u ∈ Forest.subtrees [T v], u.ptr = m ∧ Reaches (cutClusters [T v] (K v)) x u.labels ∧
        Reaches (cutClusters [T v] (K v)) y u.labels ∧ ∀ w ∈ Forest.subtrees [T v],
          Reaches (cutClusters [T v] (K v)) x w.labels → Reaches (cutClusters [T v] (K v)) y w.labels →
          u.labels ⊆ w.labels := by
  refine (finds_node hT hI hx).bind fun p ⟨m, hp⟩ => (finds_node hT hI hy).bind fun q ⟨m', hq⟩ =>
    Ends.get_bind fun s hs => Ends.pure fun _ h => ⟨h ▸ hs, ?_⟩
  have hcut := (hI s hs).cutAt v
  have hpn : p ∈ (s.view v).nodes := hcut.nodes ▸ mem_nodes.2 ⟨_, hp, rfl⟩
  have hqn : q ∈ (s.view v).nodes := hcut.nodes ▸ mem_nodes.2 ⟨_, hq, rfl⟩
  have hlca := hcut.isLca_lca (hT v) hpn hqn
  constructor
  · intro hnone hcomp
    rw [hnone] at hlca
    have hroot :=
      (hcut.root_eq_iff (hT v) ((hcut.nodeOf_eq (hT v)).2 ⟨m, hp⟩) ((hcut.nodeOf_eq (hT v)).2 ⟨m', hq⟩)).2 hcomp
    obtain ⟨ht, hg, hle⟩ := hcut.exists_grounded (hT v)
    refine hlca _ (ParentWalk.rootOf_spec hg _ p (hle p hpn)).1 ?_
    rw [show ParentWalk.rootOf (s.view v).parent (s.view v).nodes.length p = (s.view v).rootOf p from rfl, hroot]
    exact (ParentWalk.rootOf_spec hg _ q (hle q hqn)).1
  · intro n hn
    rw [hn] at hlca
    obtain ⟨hpn, hqn, hleast⟩ := hlca
    obtain ⟨u, hu, rfl⟩ := hcut.exists_of_anc (hT v) hp hpn
    refine ⟨u, hu, rfl, (anc_leaf_iff (hT v) hcut hp hu).1 hpn, (anc_leaf_iff (hT v) hcut hq hu).1 hqn,
      fun w hw hxw hyw => ?_⟩
    exact ((hcut.anc_iff (hT v) hu hw).1 (hleast _ ((anc_leaf_iff (hT v) hcut hp hw).2 hxw)
      ((anc_leaf_iff (hT v) hcut hq hw).2 hyw))).1

end Queries

/-! Queries that read counts. -/

/-- Properties that hold after a sweep if they held before. -/
structure Steady (T : Side → Tree) (K : Side → Finset Ptr) (A : Finset Label) (I : RedBlue2 → Prop) : Prop where
  holds : ∀ s, I s → At T K A s
  ensure : Ends (fun _ => False) I ensureCounts fun _ s => I s ∧ CleanAt T K A s

/-- Ensuring the counts keeps the invariant. -/
theorem steady_at : Steady T K A (At T K A) := ⟨fun _ h => h, ends_ensure.conseq (fun _ h => h) fun _ _ h => ⟨h.1, h⟩⟩

/-- Ensuring the counts keeps them clean. -/
theorem steady_cleanAt : Steady T K A (CleanAt T K A) :=
  ⟨fun _ h => h.1, ends_ensure.conseq (fun _ h => h.1) fun _ _ h => ⟨h, h⟩⟩

/-- Every node of the tree has an index. -/
theorem indexAt_ptr (h : At T K A s) {u : Tree} (hu : u ∈ Forest.subtrees [T v]) :
    (s.view v).indexAt u.ptr = some ((s.view v).indexOf u.ptr) :=
  if_pos ((h.cutAt v).nodes ▸ mem_nodes.2 ⟨u, hu, rfl⟩)

/-- **A count that may be read.** -/
theorem finds_readCount (hT : ∀ v, WellFormed [T v]) (hs : CleanAt T K A s) {u : Tree}
    (hu : u ∈ Forest.subtrees [T v]) :
    Finds (· = s) (readCount v ((s.view v).indexOf u.ptr)) fun n => n = (activeAt T K A v u).card :=
  Ends.get_bind fun s' hs' => by
    subst hs'
    rw [if_pos (hs.1.fresh hs.2 v _)]
    exact Ends.pure fun _ h => ⟨h, (hs.counted hT v).count u hu⟩

section Counts

variable (hT : ∀ v, WellFormed [T v]) {I : RedBlue2 → Prop} (hI : Steady T K A I)

include hT hI

/-- `countUnder` counts the active labels below a node. -/
theorem finds_countUnder {u : Tree} (hu : u ∈ Forest.subtrees [T v]) :
    Finds I (countUnder v u.ptr) fun n => n = (activeAt T K A v u).card := by
  refine Ends.bind hI.ensure fun _ => Ends.get_bind fun s hs => ?_
  rw [indexAt_ptr hs.2.1 hu]
  exact Ends.conseq (finds_readCount hT hs.2 hu) (fun _ h => h) fun _ _ h => ⟨h.1 ▸ hs.1, h.2⟩

/-- `hasActiveUnder` tells whether an active label is below a node. -/
theorem finds_hasActiveUnder {u : Tree} (hu : u ∈ Forest.subtrees [T v]) :
    Finds I (hasActiveUnder v u.ptr) fun b => (b = true ↔ (activeAt T K A v u).Nonempty) :=
  (finds_countUnder hT hI hu).bind fun n hn => Finds.pure (by rw [decide_eq_true_iff, hn, Finset.card_pos])

/-- Whether a label has its component to itself, among the active ones. -/
theorem finds_aloneInTree {x : Label} (hx : x ∈ (T v).labels) : Finds I (aloneInTree v x) fun _ => True :=
  (finds_rootOfLeaf hT hI.holds hx).bind fun r ⟨u, hu, hur, _⟩ => by
    subst hur
    exact (finds_countUnder hT hI hu).bind fun _ _ => Finds.pure trivial

/-- **Whether two active labels are alone below some node.** -/
theorem finds_activeSiblings {x y : Label} (hx : x ∈ A) (hy : y ∈ A) (hA : A ⊆ (T v).labels) (hxy : x ≠ y) :
    Finds I (activeSiblings v x y) fun b => (b = true ↔ ∃ u ∈ Forest.subtrees [T v], activeAt T K A v u = {x, y}) := by
  have hreach : ∀ {u : Tree}, activeAt T K A v u = {x, y} →
      Reaches (cutClusters [T v] (K v)) x u.labels ∧ Reaches (cutClusters [T v] (K v)) y u.labels := fun {u} hu =>
    ⟨(mem_reached.1 (show x ∈ activeAt T K A v u by rw [hu]; simp)).2,
      (mem_reached.1 (show y ∈ activeAt T K A v u by rw [hu]; simp)).2⟩
  refine (finds_sameTree hT hI.holds (hA hx) (hA hy)).bind fun same hsame => Ends.ite (fun h => ?_) fun h => ?_
  · refine (finds_lcaLeaves hT hI.holds (hA hx) (hA hy)).bind fun r hr => ?_
    cases r with
    | none => exact absurd (hsame.1 h) (hr.1 rfl)
    | some m =>
        obtain ⟨u, hu, rfl, hxu, hyu, hleast⟩ := hr.2 m rfl
        refine (finds_countUnder hT hI hu).bind fun n hn => Finds.pure ?_
        have hsub : {x, y} ⊆ activeAt T K A v u := by
          intro z hz
          rcases Finset.mem_insert.1 hz with rfl | hz
          · exact mem_reached.2 ⟨hx, hxu⟩
          · exact Finset.mem_singleton.1 hz ▸ mem_reached.2 ⟨hy, hyu⟩
        rw [decide_eq_true_iff, hn]
        constructor
        · intro hcard
          exact ⟨u, hu, (Finset.eq_of_subset_of_card_le hsub (by rw [hcard, Finset.card_pair hxy])).symm⟩
        · rintro ⟨w, hw, hwxy⟩
          obtain ⟨hxw, hyw⟩ := hreach hwxy
          refine le_antisymm ?_ (Finset.card_pair hxy ▸ Finset.card_le_card hsub)
          rw [← Finset.card_pair hxy, ← hwxy]
          refine Finset.card_le_card fun z hz => ?_
          obtain ⟨hzA, hzu⟩ := mem_reached.1 hz
          exact mem_reached.2 ⟨hzA, hzu.mono hxu hxw (hleast w hw hxw hyw)⟩
  · refine Finds.pure (iff_of_false Bool.false_ne_true ?_)
    rintro ⟨u, -, hu⟩
    obtain ⟨hxu, hyu⟩ := hreach hu
    exact h (hsame.2 (comp_eq_of_reaches hxu hyu))

/-- `activeSibling` finds a sibling with active labels, if there is one. -/
theorem finds_activeSibling {child : Ptr} {sibs : List (Option Ptr)}
    (hsibs : ∀ p, some p ∈ sibs → ∃ u ∈ Forest.subtrees [T v], u.ptr = p) :
    Finds I (activeSibling v child sibs) fun r =>
      (r = none → ∀ u ∈ Forest.subtrees [T v], some u.ptr ∈ sibs → u.ptr ≠ child → activeAt T K A v u = ∅) ∧
      ∀ p, r = some p → some p ∈ sibs ∧ p ≠ child := by
  induction sibs with
  | nil => exact Finds.pure ⟨fun _ _ _ h => absurd h List.not_mem_nil, fun _ h => nomatch h⟩
  | cons sib sibs ih =>
      have ih := ih fun p hp => hsibs p (List.mem_cons_of_mem _ hp)
      -- what the rest finds, when there is nothing below the first
      have hrest : (∀ u ∈ Forest.subtrees [T v], sib = some u.ptr → u.ptr ≠ child → activeAt T K A v u = ∅) →
          Finds I (activeSibling v child sibs) fun r =>
            (r = none → ∀ u ∈ Forest.subtrees [T v], some u.ptr ∈ sib :: sibs → u.ptr ≠ child →
              activeAt T K A v u = ∅) ∧ ∀ p, r = some p → some p ∈ sib :: sibs ∧ p ≠ child := fun hfirst =>
        ih.imp fun r hr => ⟨fun hnone u hu hmem hne => (List.mem_cons.1 hmem).elim
          (fun h => hfirst u hu h.symm hne) fun h => hr.1 hnone u hu h hne,
          fun p hp => ⟨List.mem_cons_of_mem _ (hr.2 p hp).1, (hr.2 p hp).2⟩⟩
      cases sib with
      | none => exact hrest fun _ _ h => nomatch h
      | some p =>
          refine Ends.ite (fun hp => hrest fun u _ hu hne => absurd ((Option.some.inj hu).symm.trans hp) hne)
            fun hne => ?_
          obtain ⟨u, hu, rfl⟩ := hsibs p (List.mem_cons_self ..)
          refine (finds_hasActiveUnder hT hI hu).bind fun b hb => Ends.ite (fun h => Finds.pure ?_) fun h => hrest ?_
          · exact ⟨fun h => (nomatch h), fun p hp => Option.some.inj hp ▸ ⟨List.mem_cons_self .., hne⟩⟩
          · intro w hw hwu _
            rw [← Forest.eq_of_ptr_eq (hT v).nodup hu hw (Option.some.inj hwu)]
            exact Finset.not_nonempty_iff_eq_empty.1 fun hn => h (hb.2 hn)

/-- **The other child of a node**, when an active label lies below it. -/
theorem finds_activeSiblingBelow {child q : Ptr} :
    Finds I (activeSiblingBelow v child q) fun r =>
      (r = none → ∀ u ∈ Forest.subtrees [T v], u.ptr ∉ K v → (ofForest [T v]).parent u.ptr = some q → u.ptr ≠ child →
        activeAt T K A v u = ∅) ∧
      ∀ p, r = some p → ∃ u ∈ Forest.subtrees [T v], u.ptr = p := by
  refine Ends.get_bind fun s hs => ?_
  have hcut := (hI.holds s hs).cutAt v
  have hmem : ∀ {p}, some p ∈ [(s.view v).leftChild q, (s.view v).rightChild q] ↔
      p ∉ K v ∧ (ofForest [T v]).parent p = some q := fun {p} => by
    rw [← hcut.parent_eq_some, ← child_iff (hT v) hcut]
    simp [eq_comm]
  have hnode : ∀ p, some p ∈ [(s.view v).leftChild q, (s.view v).rightChild q] →
      ∃ u ∈ Forest.subtrees [T v], u.ptr = p := fun p hp =>
    mem_nodes.1 (hcut.nodes ▸ (hcut.parent_mem (hT v) (hcut.parent_eq_some.2 (hmem.1 hp))).1)
  refine Ends.conseq (finds_activeSibling hT hI hnode) (fun _ h => h ▸ hs) fun r s' h => ⟨h.1, ?_, ?_⟩
  · exact fun hnone u hu huK hup => h.2.1 hnone u hu (hmem.2 ⟨huK, hup⟩)
  · exact fun p hp => hnode p (h.2.2 p hp).1

end Counts

/-! Walks up. -/

/-- A node with one child that active labels reach is reached by the same labels. -/
theorem activeAt_parent (hT : ∀ v, WellFormed [T v]) (h : At T K A s) {c : Tree} {q : Ptr}
    (hc : c ∈ Forest.subtrees [T v]) (hcK : c.ptr ∉ K v) (hq : (ofForest [T v]).parent c.ptr = some q)
    (hrest : ∀ u ∈ Forest.subtrees [T v], u.ptr ∉ K v → (ofForest [T v]).parent u.ptr = some q → u.ptr ≠ c.ptr →
      activeAt T K A v u = ∅) :
    ∃ u ∈ Forest.subtrees [T v], u.ptr = q ∧ activeAt T K A v u = activeAt T K A v c := by
  obtain ⟨l, r, hnode, hor⟩ := (parent_ofForest (hT v)).1 hq
  obtain ⟨hl, hr⟩ := Forest.mem_subtrees_children hnode
  have hne := left_ne_right (hT v) hnode
  have hempty : ∀ d : Tree, d ∈ Forest.subtrees [T v] → (l.ptr = d.ptr ∨ r.ptr = d.ptr) → d.ptr ≠ c.ptr →
      ∀ x, ¬(d.ptr ∉ K v ∧ x ∈ activeAt T K A v d) := fun d hd hchild hdc x hx => by
    have := hrest d hd hx.1 ((parent_ofForest (hT v)).2 ⟨l, r, hnode, hchild⟩) hdc
    exact Finset.notMem_empty x (this ▸ hx.2)
  refine ⟨_, hnode, rfl, Finset.ext fun x => ?_⟩
  rw [mem_reached_node (hT v) (h.cutAt v) hnode]
  rcases hor with hlc | hrc
  · obtain rfl := Forest.eq_of_ptr_eq (hT v).nodup hl hc hlc
    have := hempty r hr (Or.inr rfl) hne.symm x
    tauto
  · obtain rfl := Forest.eq_of_ptr_eq (hT v).nodup hr hc hrc
    have := hempty l hl (Or.inl rfl) hne x
    tauto

section Walks

variable (hT : ∀ v, WellFormed [T v])

include hT

omit hT in
/-- `height` bounds the height of the tree. -/
theorem finds_height {I : RedBlue2 → Prop} (hI : ∀ s, I s → At T K A s) :
    Finds I (height v) fun n => n = (ofForest [T v]).nodes.length :=
  Ends.get_bind fun s hs => Ends.pure fun _ h => ⟨h ▸ hs, by rw [((hI s hs).cutAt v).nodes]⟩

omit hT in
/-- The index of a node is below the number of nodes. -/
theorem index_lt {u : Tree} (hu : u ∈ Forest.subtrees [T v]) :
    (ofForest [T v]).indexOf u.ptr < (ofForest [T v]).nodes.length :=
  List.idxOf_lt_length_iff.2 (mem_nodes.2 ⟨u, hu, rfl⟩)

/-- The edge that is cut off lies above a node that only the label itself reaches. -/
theorem ends_cutOffLoop {x : Label} : ∀ (fuel : ℕ) (c : Tree), c ∈ Forest.subtrees [T v] → activeAt T K A v c = {x} →
    (ofForest [T v]).indexOf c.ptr < fuel →
    Ends (fun _ => False) (At T K A) (cutOffLoop v fuel c.ptr) fun _ s => At T K A s ∨
      ∃ u ∈ Forest.subtrees [T v], activeAt T K A v u = {x} ∧ At T (Function.update K v (insert u.ptr (K v))) A s := by
  intro fuel
  induction fuel with
  | zero => exact fun _ _ _ h => absurd h (Nat.not_lt_zero _)
  | succ fuel ih =>
      intro c hc hx hfuel
      refine Ends.get_bind fun s hs => ?_
      cases hp : (s.view v).parent c.ptr with
      | none => exact Ends.pure fun _ h => Or.inl (h ▸ hs)
      | some q =>
          obtain ⟨hcK, hq⟩ := (hs.cutAt v).parent_eq_some.1 hp
          refine Ends.conseq ((finds_activeSiblingBelow hT steady_at).bind fun sib hsib => ?_) (fun _ h => h ▸ hs)
            fun _ _ h => h
          cases sib with
          | some sib => exact Ends.modify fun s' hs' => Or.inr ⟨c, hc, hx, hs'.cutEdge hT hc⟩
          | none =>
              obtain ⟨u, hu, rfl, hux⟩ := activeAt_parent hT hs hc hcK hq (hsib.1 rfl)
              have := indexOf_parent_lt (hT v) hq
              exact ih u hu (hux.trans hx) (by omega)

/-- `cutOffLeaf` cuts nothing, or an edge with its label alone below. -/
theorem ends_cutOffLeaf {x : Label} (hx : x ∈ A) (hA : A ⊆ (T v).labels) :
    Ends (fun _ => False) (At T K A) (cutOffLeaf v x) fun _ s => At T K A s ∨
      ∃ u ∈ Forest.subtrees [T v], activeAt T K A v u = {x} ∧ At T (Function.update K v (insert u.ptr (K v))) A s := by
  refine (finds_height fun _ h => h).bind fun n hn => (finds_node hT (fun _ h => h) (hA hx)).bind fun p ⟨m, hp⟩ => ?_
  refine ends_cutOffLoop hT n _ hp ?_ (hn ▸ index_lt hp)
  ext z
  simp only [Tree.labels, mem_reached, Reaches, Finset.mem_singleton]
  exact ⟨fun h => h.2.1, fun h => ⟨h ▸ hx, h, fun Y _ hzY => by simpa [← h] using hzY⟩⟩

/-- The loop of `cutPendant` cuts at most one edge. -/
theorem ends_cutPendantLoop : ∀ (fuel : ℕ) (c : Tree), c ∈ Forest.subtrees [T v] →
    (ofForest [T v]).indexOf c.ptr < fuel →
    Ends (fun _ => False) (At T K A) (cutPendantLoop v fuel c.ptr) fun _ s => At T K A s ∨
      ∃ u ∈ Forest.subtrees [T v], At T (Function.update K v (insert u.ptr (K v))) A s := by
  intro fuel
  induction fuel with
  | zero => exact fun _ _ h => absurd h (Nat.not_lt_zero _)
  | succ fuel ih =>
      intro c hc hfuel
      refine Ends.get_bind fun s hs => ?_
      cases hp : (s.view v).parent c.ptr with
      | none => exact Ends.pure fun _ h => Or.inl (h ▸ hs)
      | some q =>
          obtain ⟨u, hu, rfl⟩ := mem_nodes.1 ((hs.cutAt v).nodes ▸ ((hs.cutAt v).parent_mem (hT v) hp).2)
          have := indexOf_parent_lt (hT v) ((hs.cutAt v).parent_eq_some.1 hp).2
          refine Ends.conseq ((finds_activeSiblingBelow hT steady_at).bind fun sib hsib => ?_) (fun _ h => h ▸ hs)
            fun _ _ h => h
          cases sib with
          | none => exact ih u hu (by omega)
          | some sib =>
              obtain ⟨d, hd, rfl⟩ := hsib.2 sib rfl
              exact Ends.modify fun s' hs' => Or.inr ⟨d, hd, hs'.cutEdge hT hd⟩

/-- `cutPendant` cuts at most one edge. -/
theorem ends_cutPendant {x : Label} (hx : x ∈ (T v).labels) :
    Ends (fun _ => False) (At T K A) (cutPendant v x) fun _ s => At T K A s ∨
      ∃ u ∈ Forest.subtrees [T v], At T (Function.update K v (insert u.ptr (K v))) A s :=
  (finds_height fun _ h => h).bind fun n hn => (finds_node hT (fun _ h => h) hx).bind fun _ ⟨_, hp⟩ =>
    ends_cutPendantLoop hT n _ hp (hn ▸ index_lt hp)

/-- The loop of `pBelowLca` ends. -/
theorem finds_pBelowLoop {m : Option Ptr} : ∀ (fuel : ℕ) (c : Tree), c ∈ Forest.subtrees [T v] →
    (ofForest [T v]).indexOf c.ptr < fuel → Finds (At T K A) (pBelowLoop v m fuel c.ptr) fun _ => True := by
  intro fuel
  induction fuel with
  | zero => exact fun _ _ h => absurd h (Nat.not_lt_zero _)
  | succ fuel ih =>
      intro c hc hfuel
      refine Ends.get_bind fun s hs => ?_
      cases hp : (s.view v).parent c.ptr with
      | none => exact Ends.pure fun _ h => ⟨h ▸ hs, trivial⟩
      | some q =>
          obtain ⟨u, hu, rfl⟩ := mem_nodes.1 ((hs.cutAt v).nodes ▸ ((hs.cutAt v).parent_mem (hT v) hp).2)
          have := indexOf_parent_lt (hT v) ((hs.cutAt v).parent_eq_some.1 hp).2
          refine Ends.conseq (P := At T K A) (Ends.ite (fun _ => Finds.pure trivial) fun _ =>
            (finds_activeSiblingBelow hT steady_at).bind fun sib _ => ?_) (fun _ h => h ▸ hs) fun _ _ h => h
          cases sib with
          | none => exact ih u hu (by omega)
          | some sib => exact Finds.pure trivial

/-- `pBelowLca` ends. -/
theorem finds_pBelowLca {x y : Label} (hx : x ∈ (T v).labels) (hy : y ∈ (T v).labels) :
    Finds (At T K A) (pBelowLca v x y) fun _ => True :=
  (finds_lcaLeaves hT (fun _ h => h) hx hy).bind fun _ _ => (finds_height fun _ h => h).bind fun n hn =>
    (finds_node hT (fun _ h => h) hx).bind fun _ ⟨_, hp⟩ => finds_pBelowLoop hT n _ hp (hn ▸ index_lt hp)

end Walks

/-! Walks down. -/

/-- The list has the elements of the set, each once. -/
def Lists (S : List Label) (X : Finset Label) : Prop := S.Nodup ∧ ∀ x, x ∈ S ↔ x ∈ X

/-- A list without repetition is as long as its set is large. -/
theorem Lists.length_eq {S : List Label} {X : Finset Label} (h : Lists S X) : S.length = X.card := by
  rw [← List.toFinset_card_of_nodup h.1]
  congr 1
  ext x
  rw [List.mem_toFinset, h.2]

/-- A child that its parent still has. -/
def uncut (K : Finset Ptr) (c : Tree) : List Tree := if c.ptr ∈ K then [] else [c]

/-- A child is gone on to when it is not cut. -/
theorem mem_uncut {K : Finset Ptr} {c u : Tree} : u ∈ uncut K c ↔ u = c ∧ c.ptr ∉ K := by
  unfold uncut
  split_ifs with h <;> simp [h]

/-- The children that are gone on to are the links of the view. -/
theorem map_ptr_uncut {K : Finset Ptr} {c : Tree} :
    (uncut K c).map Tree.ptr = ((some c.ptr).filter (· ∉ K)).toList := by
  unfold uncut
  split_ifs with h <;> simp [h, Option.filter]

/-- No more nodes are gone on to than the child has. -/
theorem sum_uncut_le {K : Finset Ptr} {c : Tree} :
    ((uncut K c).map fun u => u.subtrees.length).sum ≤ c.subtrees.length := by
  unfold uncut
  split_ifs <;> simp

/-- The loop lists the active labels that reach the nodes on its stack. -/
theorem activeLabelsLoop_spec {F : Forest} {K : Finset Ptr} {w : MutableForestView} (hF : WellFormed F)
    (h : CutAt F K w) : ∀ (fuel : ℕ) (us : List Tree) (out : List Label), (∀ u ∈ us, u ∈ F.subtrees) →
      us.Pairwise (fun u u' => Disjoint u.labels u'.labels) → out.Nodup → (∀ x ∈ out, ∀ u ∈ us, x ∉ u.labels) →
      (us.map fun u => u.subtrees.length).sum ≤ fuel →
      ∃ out', activeLabelsLoop w A fuel (us.map Tree.ptr) out = some out' ∧ out'.Nodup ∧
        ∀ x, x ∈ out' ↔ x ∈ out ∨ ∃ u ∈ us, x ∈ reached (cutClusters F K) A u.labels := by
  intro fuel
  induction fuel with
  | zero =>
      intro us out _ _ hnd _ hsum
      cases us with
      | nil => exact ⟨out, rfl, hnd, by simp⟩
      | cons u us =>
          have := List.length_pos_of_mem u.mem_subtrees_self
          simp only [List.map_cons, List.sum_cons] at hsum
          omega
  | succ fuel ih =>
      intro us out hus hdis hnd hout hsum
      cases us with
      | nil => exact ⟨out, rfl, hnd, by simp⟩
      | cons u us =>
          have huF := hus u (List.mem_cons_self ..)
          obtain ⟨hdu, hdus⟩ := List.pairwise_cons.1 hdis
          have hat : w.indexAt u.ptr = some (w.indexOf u.ptr) := if_pos (h.nodes ▸ mem_nodes.2 ⟨u, huF, rfl⟩)
          simp only [List.map_cons, List.sum_cons, activeLabelsLoop, hat, Option.bind_eq_bind, Option.bind_some,
            h.labelOf_indexOf hF huF] at hsum ⊢
          have hrest := fun u hu => hus u (List.mem_cons_of_mem _ hu)
          cases u with
          | leaf p l m =>
              have hl₀ : leafLabel (.leaf p l m) ≠ 0 := hF.label_ne l (Forest.subset_labels
                (Forest.mem_clusters_iff.2 ⟨_, huF, rfl⟩) (Finset.mem_singleton_self l))
              have hlen : (Tree.leaf p l m).subtrees.length = 1 := rfl
              have hreach : ∀ x, x ∈ reached (cutClusters F K) A (Tree.leaf p l m).labels ↔ x = l ∧ l ∈ A := fun x => by
                simp only [Tree.labels, mem_reached, Reaches, Finset.mem_singleton]
                exact ⟨fun h => ⟨h.2.1, h.2.1 ▸ h.1⟩,
                  fun h => ⟨h.1 ▸ h.2, h.1, fun Y _ hY => by simpa [← h.1] using hY⟩⟩
              have hlus : ∀ u ∈ us, l ∉ u.labels := fun u hu =>
                Finset.disjoint_left.1 (hdu u hu) (Finset.mem_singleton_self l)
              rw [if_pos hl₀]
              obtain ⟨out', hloop, hnd', hmem⟩ := ih us (if l ∈ A then out ++ [l] else out) hrest hdus (by
                  split_ifs
                  · exact List.nodup_append.2 ⟨hnd, List.nodup_singleton l, fun x hx y hy hxy =>
                      hout x hx _ (List.mem_cons_self ..) (by simpa [hxy] using hy)⟩
                  · exact hnd) (fun x hx u hu => by
                  split_ifs at hx
                  · rcases List.mem_append.1 hx with hx | hx
                    · exact hout x hx u (List.mem_cons_of_mem _ hu)
                    · exact List.mem_singleton.1 hx ▸ hlus u hu
                  · exact hout x hx u (List.mem_cons_of_mem _ hu)) (by omega)
              refine ⟨out', hloop, hnd', fun x => ?_⟩
              rw [hmem, List.exists_mem_cons_iff, hreach]
              split_ifs with hA <;> simp [hA, or_assoc]
          | node q l r =>
              obtain ⟨hlF, hrF⟩ := Forest.mem_subtrees_children huF
              have hD := hF.distinct.of_mem_subtrees huF
              have hleft : w.leftChild q = (some l.ptr).filter (· ∉ K) := by
                rw [h.leftChild, (leftChild_ofForest hF).2 ⟨l, r, huF, rfl⟩]
              have hright : w.rightChild q = (some r.ptr).filter (· ∉ K) := by
                rw [h.rightChild, (rightChild_ofForest hF).2 ⟨l, r, huF, rfl⟩]
              have hlen : (Tree.node q l r).subtrees.length = l.subtrees.length + r.subtrees.length + 1 := by
                simp [Tree.subtrees]
              have hsub : ∀ {u}, u ∈ uncut K r ++ uncut K l → u ∈ F.subtrees ∧ u.labels ⊆ (Tree.node q l r).labels := by
                intro u hu
                rcases List.mem_append.1 hu with hu | hu
                · obtain ⟨rfl, -⟩ := mem_uncut.1 hu
                  exact ⟨hrF, Finset.subset_union_right⟩
                · obtain ⟨rfl, -⟩ := mem_uncut.1 hu
                  exact ⟨hlF, Finset.subset_union_left⟩
              rw [if_neg (show ¬leafLabel (.node q l r) ≠ 0 from fun hn => hn rfl), Tree.ptr_node, hleft, hright,
                ← map_ptr_uncut, ← map_ptr_uncut, ← List.map_append, ← List.map_append]
              have hus' : ∀ u ∈ uncut K r ++ uncut K l ++ us, u ∈ F.subtrees := fun u hu =>
                (List.mem_append.1 hu).elim (fun hu => (hsub hu).1) (hrest u)
              have hself : ∀ c, (uncut K c).Pairwise fun u u' => Disjoint u.labels u'.labels := fun c => by
                unfold uncut
                split_ifs <;> simp
              have hdis' : (uncut K r ++ uncut K l ++ us).Pairwise fun u u' => Disjoint u.labels u'.labels := by
                refine List.pairwise_append.2 ⟨?_, hdus, fun u hu u' hu' => (hdu u' hu').mono_left (hsub hu).2⟩
                refine List.pairwise_append.2 ⟨hself r, hself l, fun u hu u' hu' => ?_⟩
                rw [(mem_uncut.1 hu).1, (mem_uncut.1 hu').1]
                exact hD.2.2.symm
              have hout' : ∀ x ∈ out, ∀ u ∈ uncut K r ++ uncut K l ++ us, x ∉ u.labels := by
                intro x hx u hu
                rcases List.mem_append.1 hu with hu | hu
                · exact fun hxu => hout x hx _ (List.mem_cons_self ..) ((hsub hu).2 hxu)
                · exact hout x hx u (List.mem_cons_of_mem _ hu)
              have hsum' : ((uncut K r ++ uncut K l ++ us).map fun u => u.subtrees.length).sum ≤ fuel := by
                have h₁ := sum_uncut_le (K := K) (c := l)
                have h₂ := sum_uncut_le (K := K) (c := r)
                simp only [List.map_append, List.sum_append]
                omega
              obtain ⟨out', hloop, hnd', hmem⟩ := ih _ out hus' hdis' hnd hout' hsum'
              refine ⟨out', hloop, hnd', fun x => ?_⟩
              rw [hmem, List.exists_mem_cons_iff, mem_reached_node hF h huF]
              simp only [List.mem_append, mem_uncut, or_and_right, exists_or]
              simp only [and_assoc, exists_eq_left]
              tauto

section Descents

variable (hT : ∀ v, WellFormed [T v])

include hT

/-- `activeLabelsUnder` lists the active labels below a node. -/
theorem finds_activeLabelsUnder {I : RedBlue2 → Prop} (hI : ∀ s, I s → At T K A s) {u : Tree}
    (hu : u ∈ Forest.subtrees [T v]) : Finds I (activeLabelsUnder v u.ptr) fun S => Lists S (activeAt T K A v u) :=
  Ends.get_bind fun s hs => by
    have hcut := (hI s hs).cutAt v
    obtain ⟨out, hloop, hnd, hmem⟩ := activeLabelsLoop_spec (A := A) (hT v) hcut (s.view v).nodes.length [u] []
      (by simpa using hu) (List.pairwise_singleton _ _) List.nodup_nil (by simp)
      (by simpa using length_subtrees_le hcut hu)
    rw [(hI s hs).active, show [u.ptr] = [u].map Tree.ptr from rfl, hloop]
    exact Ends.pure fun _ h => ⟨h ▸ hs, hnd, fun x => by simpa using hmem x⟩

/-- `uTreeHasActiveOutsideU` ends. -/
theorem finds_uTreeHasActiveOutsideU {I : RedBlue2 → Prop} (hI : ∀ s, I s → At T K A s) {x : Label}
    (hx : x ∈ (T .t2).labels) (U : List Label) : Finds I (uTreeHasActiveOutsideU x U) fun _ => True :=
  (finds_rootOfLeaf hT hI hx).bind fun r ⟨u, hu, hur, _⟩ => by
    subst hur
    exact (finds_activeLabelsUnder hT hI hu).bind fun _ _ => Finds.pure trivial

/-- The node of the original tree is one of the working tree. -/
theorem finds_origLca2InTreeOf {I : RedBlue2 → Prop} (hI : ∀ s, I s → At T K A s) {x y : Label}
    (hx : x ∈ (T .t2).labels) (hy : y ∈ (T .t2).labels) : Finds I (origLca2InTreeOf x y) fun _ => True :=
  Ends.get_bind fun s hs => by
    have hcut := cutAt_ofForest [T .t2]
    obtain ⟨p, m, hp, hpF⟩ := exists_nodeOf (hT .t2) hx
    obtain ⟨q, m', hq, hqF⟩ := exists_nodeOf (hT .t2) hy
    have hview : s.t2o.view = ofForest [T .t2] := by
      rw [(hI s hs).t2o]
      rfl
    have hnode : ∀ {z p}, (original (T .t2)).view.nodeOf z = some p → s.t2o.view.nodeOf z = some p := fun hz => by
      rw [(hI s hs).t2o, hz]
    refine Ends.conseq (P := I) ((finds_access (hnode hp)).bind fun nu hnu =>
      (finds_access (hnode hq)).bind fun nv hnv => ?_) (fun _ h => h ▸ hs) fun _ _ h => h
    subst nu nv
    cases hlca : s.t2o.view.lca p q with
    | none => exact Finds.pure trivial
    | some lo =>
        have hspec := hcut.isLca_lca (hT .t2) (mem_nodes.2 ⟨_, hpF, rfl⟩) (mem_nodes.2 ⟨_, hqF, rfl⟩)
        rw [← hview, Tree.ptr_leaf, Tree.ptr_leaf, hlca] at hspec
        obtain ⟨u, hu, rfl⟩ := hcut.exists_of_anc (hT .t2) hpF (hview ▸ hspec.1)
        have hat : s.t2o.view.indexAt u.ptr = some ((ofForest [T .t2]).indexOf u.ptr) := by
          rw [hview]
          exact if_pos (mem_nodes.2 ⟨u, hu, rfl⟩)
        have hwork : s.t2.nodes[(ofForest [T .t2]).indexOf u.ptr]? = some u.ptr := by
          rw [show s.t2.nodes = (ofForest [T .t2]).nodes from ((hI s hs).cutAt .t2).nodes]
          exact getElem?_nodes_indexOf (hT .t2) hcut (mem_nodes.2 ⟨u, hu, rfl⟩)
        refine (finds_access hat).bind fun i hi => ?_
        subst hi
        exact (finds_access hwork).bind fun _ _ => (finds_rootOfLeaf hT hI hx).bind fun _ _ => Finds.pure trivial

/-- `restrictsO` ends. -/
theorem finds_restrictsO {I : RedBlue2 → Prop} (hI : ∀ s, I s → At T K A s) {x y z : Label} (hx : x ∈ (T .t2).labels)
    (hy : y ∈ (T .t2).labels) (hz : z ∈ (T .t2).labels) (hxy : x ≠ y) (hxz : x ≠ z) (hyz : y ≠ z) :
    Finds I (restrictsO x y z) fun _ => True :=
  Ends.get_bind fun s hs => by
    obtain ⟨w, hw, -⟩ := exists_outlier (hT .t2) hx hy hz hxy hxz hyz
    rw [(hI s hs).t2o, hw]
    exact Ends.pure fun _ h => ⟨h ▸ hs, trivial⟩

/-- `hasOutlier` ends. -/
theorem finds_hasOutlier {I : RedBlue2 → Prop} (hI : ∀ s, I s → At T K A s) {x y : Label} (hx : x ∈ (T .t2).labels)
    (hy : y ∈ (T .t2).labels) (hxy : x ≠ y) {ws : List Label} (hws : ∀ w ∈ ws, w ∈ (T .t2).labels) :
    Finds I (hasOutlier x y ws) fun _ => True := by
  induction ws with
  | nil => exact Finds.pure trivial
  | cons w ws ih =>
      have ih := ih fun w hw => hws w (List.mem_cons_of_mem _ hw)
      refine Ends.ite (fun _ => ih) fun hne => ?_
      push Not at hne
      exact (finds_restrictsO hT hI hx hy (hws w (List.mem_cons_self ..)) hxy hne.1.symm hne.2.symm).bind fun b _ =>
        Ends.ite (fun _ => Finds.pure trivial) fun _ => ih

end Descents

end RedBlue2
end Approx
end Maf
