/-
# Newick texts and forests

`ForestIO::WriteNewick` walks around each tree along the pointers and writes the
text of its topology (`writeNewick_eq`), and `Forest::operator==` compares
topologies (`Laid.equal_eq`).  With what `ReadNewick` makes of a text
(`readNewick_events`) this closes the round trip (`readNewick_writeNewick`): the
forest that was written is read back, and the order of children in a text does
not matter.  It needs at least one label, which `ReadNewick` demands, and less than
`2 ^ 30`, from where on `2 * numberOfTerminals` leaves the range of `int`.

The order of the roots is that of `readNewick`, with `__builtin_ctzll(0)` read as
`64`.  It is not asked for, and `evalNewick` returns the same forest, if and only if
the smallest labels of all trees lie in one word of 64 labels (`evalNewick_eq`).
-/

import Maf.Graph.SortChildren

namespace Maf

open Bitset (Within wordOf)
open Newick (Failure lexTrees)

/-- **Every forest without collapsed terminals can be stored** as if it was just read. -/
theorem Forest.toStore_fresh {width : ℕ} {F : Forest} (hF : F.Valid) (hw : ∀ t ∈ F, Within width t.subtreeTerminals)
    (hempty : ∀ u ∈ F.subtrees, u.isTerminal = true → u.subtreeTerminals = u.labels) :
    F.Fresh width (F.toStore width) := by
  have huncollapsed : ∀ p x m, Tree.leaf p x m ∈ F.subtrees → m = ∅ := by
    intro p x m h
    have hm : insert x m = {x} := hempty _ h rfl
    refine Finset.eq_empty_of_forall_notMem fun y hy => ?_
    have hlt := (hF.of_mem_subtrees h).2 y hy
    have hyx : y ∈ ({x} : Finset Label) := hm ▸ Finset.mem_insert_of_mem hy
    exact hlt.ne (Finset.mem_singleton.1 hyx).symm
  refine ⟨toStore_wellFormed hF hw, ⟨fun p x => ?_, fun p x => ?_⟩, huncollapsed⟩
  · show (F.nodeAt p).bind Tree.terminalToLabel = some x ↔ _
    rw [Option.bind_eq_some_iff]
    constructor
    · rintro ⟨u, hu, hx⟩
      obtain ⟨q, m, rfl⟩ := Tree.terminalToLabel_eq_some.1 hx
      have hptr := List.find?_some hu
      obtain rfl : q = p := of_decide_eq_true hptr
      exact ⟨m, List.mem_of_find?_eq_some hu⟩
    · rintro ⟨m, hm⟩
      exact ⟨_, nodeAt_ptr hF.nodup hm, rfl⟩
  · show (F.labelToTerminal x).map Tree.ptr = some p ↔ _
    rw [Option.map_eq_some_iff]
    constructor
    · rintro ⟨u, hu, rfl⟩
      obtain ⟨hmem, hterm, hx⟩ := (labelToTerminal_eq_some_iff hF).1 hu
      cases u with
      | leaf q y m =>
          obtain rfl := huncollapsed q y m hmem
          obtain rfl : x = y := by simpa using hx
          exact ⟨_, hmem⟩
      | node => cases hterm
    · rintro ⟨m, hm⟩
      exact ⟨_, labelToTerminal_leaf hF hm, rfl⟩

namespace Tree

/-- The topology of a tree. -/
def shape : Tree → Shape
  | leaf _ x _ => .tip x
  | node _ l r => .join l.shape r.shape

/-- A tree has the labels of its topology. -/
@[simp] theorem labels_shape (t : Tree) : t.shape.labels = t.labels := by
  induction t with
  | leaf => rfl
  | node p l r ihl ihr => rw [shape, Shape.labels, ihl, ihr, labels]

/-- A tree has the least label of its topology. -/
@[simp] theorem least_shape (t : Tree) : t.shape.least = t.least := by
  induction t with
  | leaf => rfl
  | node p l r ihl ihr => rw [shape, Shape.least, ihl, ihr, least]

/-- A tree has the size of its topology. -/
theorem length_ptrs (t : Tree) : t.ptrs.length = t.shape.size := by
  induction t with
  | leaf => rfl
  | node p l r ihl ihr =>
      rw [ptrs, List.length_cons, List.length_append, ihl, ihr, shape, Shape.size]

/-- The topology of a valid tree is normal. -/
theorem Valid.normal_shape {t : Tree} (ht : t.Valid) : t.shape.Normal := by
  induction t with
  | leaf => trivial
  | node p l r ihl ihr =>
      obtain ⟨hl, hr, hd, hlt⟩ := ht
      refine ⟨ihl hl, ihr hr, ?_, ?_⟩
      · rw [labels_shape, labels_shape]
        exact hd.mono (labels_subset_subtreeTerminals l) (labels_subset_subtreeTerminals r)
      · rwa [least_shape, least_shape]

end Tree

namespace Shape

/-- In a normal topology no label is there twice. -/
theorem Normal.distinct {t : Shape} (ht : t.Normal) : t.Distinct := by
  induction t with
  | tip x => trivial
  | join a b iha ihb => exact ⟨iha ht.1, ihb ht.2.1, ht.2.2.1⟩

/-- A sorted topology stays as it is. -/
theorem Normal.sort_eq {t : Shape} (ht : t.Normal) : t.sort = t := by
  induction t with
  | tip x => rfl
  | join a b iha ihb => rw [sort, iha ht.1, ihb ht.2.1, cherry, if_pos ht.2.2.2.le]

/-- The tree that is placed has the sorted topology. -/
@[simp] theorem shape_place (p : Ptr) (t : Shape) : (t.place p).shape = t.sort := by
  induction t generalizing p with
  | tip x => rfl
  | join a b iha ihb =>
      rw [place, Tree.sortedNode, least_place, least_place, sort, cherry, least_sort, least_sort]
      by_cases h : b.least < a.least
      · rw [if_pos h, if_neg (not_le.2 h), Tree.shape, iha, ihb]
      · rw [if_neg h, if_pos (not_lt.1 h), Tree.shape, iha, ihb]

/-- The children of some nodes are swapped. -/
inductive Swap : Shape → Shape → Prop
  | tip (x : Label) : Swap (tip x) (tip x)
  | keep {a a' b b' : Shape} : Swap a a' → Swap b b' → Swap (join a b) (join a' b')
  | swap {a a' b b' : Shape} : Swap a a' → Swap b b' → Swap (join a b) (join b' a')

/-- Swapping children keeps the labels. -/
theorem Swap.labels {t u : Shape} (h : Swap t u) : u.labels = t.labels := by
  induction h with
  | tip x => rfl
  | keep _ _ iha ihb => rw [Shape.labels, Shape.labels, iha, ihb]
  | swap _ _ iha ihb => rw [Shape.labels, Shape.labels, iha, ihb, Finset.union_comm]

/-- Swapping children keeps the size. -/
theorem Swap.size {t u : Shape} (h : Swap t u) : u.size = t.size := by
  induction h with
  | tip x => rfl
  | keep _ _ iha ihb => rw [Shape.size, Shape.size, iha, ihb]
  | swap _ _ iha ihb => rw [Shape.size, Shape.size, iha, ihb, Nat.add_comm (Shape.size _)]

/-- Swapping children keeps the labels distinct. -/
theorem Swap.distinct {t u : Shape} (h : Swap t u) (ht : t.Distinct) : u.Distinct := by
  induction h with
  | tip x => trivial
  | keep ha hb iha ihb => exact ⟨iha ht.1, ihb ht.2.1, by rw [ha.labels, hb.labels]; exact ht.2.2⟩
  | swap ha hb iha ihb => exact ⟨ihb ht.2.1, iha ht.1, by rw [ha.labels, hb.labels]; exact ht.2.2.symm⟩

/-- Sorting forgets the order of the children. -/
theorem cherry_comm {a b : Shape} (hd : Disjoint a.labels b.labels) : cherry b a = cherry a b := by
  have hne : a.least ≠ b.least := fun h => Finset.disjoint_left.1 hd a.least_mem (h ▸ b.least_mem)
  unfold cherry
  rcases lt_or_gt_of_ne hne with h | h
  · rw [if_neg (not_le.2 h), if_pos h.le]
  · rw [if_pos h.le, if_neg (not_le.2 h)]

/-- **Sorting forgets the order of children.** -/
theorem Swap.sort {t u : Shape} (h : Swap t u) (ht : t.Distinct) : u.sort = t.sort := by
  induction h with
  | tip x => rfl
  | keep _ _ iha ihb => rw [Shape.sort, Shape.sort, iha ht.1, ihb ht.2.1]
  | swap _ _ iha ihb =>
      rw [Shape.sort, Shape.sort, iha ht.1, ihb ht.2.1, cherry_comm]
      rw [labels_sort, labels_sort]
      exact ht.2.2

/-- Every swapped topology comes from one of the topologies. -/
theorem exists_swap {ts ts' : List Shape} (h : List.Forall₂ Swap ts ts') {u : Shape} (hu : u ∈ ts') :
    ∃ t ∈ ts, Swap t u := by
  induction h with
  | nil => cases hu
  | cons hab _ ih =>
      rcases List.mem_cons.1 hu with rfl | hu
      · exact ⟨_, List.mem_cons_self .., hab⟩
      · obtain ⟨t, ht, htu⟩ := ih hu
        exact ⟨t, List.mem_cons_of_mem _ ht, htu⟩

/-- Swapping children keeps the sizes. -/
theorem map_size_swap {ts ts' : List Shape} (h : List.Forall₂ Swap ts ts') : ts'.map size = ts.map size := by
  induction h with
  | nil => rfl
  | cons hab _ ih => rw [List.map_cons, List.map_cons, ih, hab.size]

/-- Swapped topologies are distinct as well, and sorted alike. -/
theorem allDistinct_swap {ts ts' : List Shape} (h : List.Forall₂ Swap ts ts') (hts : AllDistinct ts) :
    AllDistinct ts' ∧ ts'.map sort = ts.map sort := by
  obtain ⟨hd, hpair⟩ := hts
  refine ⟨⟨fun u hu => ?_, ?_⟩, ?_⟩
  · obtain ⟨t, ht, htu⟩ := exists_swap h hu
    exact htu.distinct (hd t ht)
  · induction h with
    | nil => exact List.Pairwise.nil
    | cons hab hrest ih =>
        rw [List.pairwise_cons] at hpair
        refine List.pairwise_cons.2 ⟨fun u hu => ?_, ih (fun t ht => hd t (List.mem_cons_of_mem _ ht)) hpair.2⟩
        obtain ⟨t, ht, htu⟩ := exists_swap hrest hu
        rw [hab.labels, htu.labels]
        exact hpair.1 t ht
  · clear hpair
    induction h with
    | nil => rfl
    | cons hab _ ih =>
        rw [List.map_cons, List.map_cons, hab.sort (hd _ (List.mem_cons_self ..)),
          ih fun t ht => hd t (List.mem_cons_of_mem _ ht)]

/-- A binary topology has one node less than twice its labels. -/
theorem size_succ {t : Shape} (ht : t.Distinct) : t.size + 1 = 2 * t.labels.card := by
  induction t with
  | tip x => rfl
  | join a b iha ihb =>
      have ha := iha ht.1
      have hb := ihb ht.2.1
      rw [size, labels, Finset.card_union_of_disjoint ht.2.2]
      omega

/-- The number of turns of the loop of `WriteNewick` below a node. -/
def steps : Shape → ℕ
  | tip _ => 1
  | join a b => a.steps + b.steps + 3

/-- The walk around a tree is bounded by its size. -/
theorem steps_lt (t : Shape) : t.steps < 3 * t.size := by
  induction t with
  | tip x => simp [steps, size]
  | join a b iha ihb =>
      rw [steps, size]
      omega

end Shape

namespace Graph

/-! ### The writer -/

/-- **The walk around a subtree** writes its text. -/
theorem writeTree_subtree {s : Store} {width : ℕ} {t : Tree} {parent sibling : Option Ptr}
    (hst : t.Stored width s.nodes parent sibling) (hnd : t.ptrs.Nodup)
    (hlab : ∀ p x m, Tree.leaf p x m ∈ t.subtrees → s.terminalToLabel p = some x) (fuel : ℕ) (stream : List Char) :
    writeTree s (t.shape.steps + fuel) t.ptr true stream =
      writeTree s fuel t.ptr false (stream ++ t.shape.newick) := by
  induction t generalizing parent sibling fuel stream with
  | leaf p x m =>
      have hl : (s.nodes p).leftChild = none := by rw [show s.nodes p = _ from hst]; rfl
      rw [Tree.shape, Shape.steps, Nat.add_comm, Tree.ptr_leaf, writeTree, hl]
      simp only [hlab p x m (Tree.mem_subtrees_self _)]
      rfl
  | node p l r ihl ihr =>
      obtain ⟨hp, hl, hr⟩ := hst
      rw [Tree.ptrs, List.nodup_cons, List.nodup_append] at hnd
      obtain ⟨-, hndl, hndr, hapart⟩ := hnd
      have hleft : (s.nodes p).leftChild = some l.ptr := by rw [hp]; rfl
      have hlp : (s.nodes l.ptr).parent = some p := by rw [hl.root]; rfl
      have hls : (s.nodes l.ptr).sibling = some r.ptr := by rw [hl.root]; rfl
      have hrp : (s.nodes r.ptr).parent = some p := by rw [hr.root]; rfl
      have hne : ¬some l.ptr = some r.ptr := fun h =>
        hapart _ (Tree.ptr_mem_ptrs (Tree.mem_subtrees_self l)) _ (Tree.ptr_mem_ptrs (Tree.mem_subtrees_self r))
          (Option.some.inj h)
      have hsteps : (Tree.node p l r).shape.steps + fuel =
          l.shape.steps + (r.shape.steps + (fuel + 1) + 1) + 1 := by
        rw [Tree.shape, Shape.steps]
        omega
      rw [hsteps, Tree.ptr_node, writeTree, hleft]
      simp only
      rw [ihl hl hndl fun q x m h => hlab q x m (Tree.mem_subtrees_node.2 (Or.inr (Or.inl h))), writeTree, hlp]
      simp only [hleft, if_true, hls]
      show writeTree s _ r.ptr true _ = _
      rw [ihr hr hndr fun q x m h => hlab q x m (Tree.mem_subtrees_node.2 (Or.inr (Or.inr h))), writeTree, hrp]
      simp only [hleft, if_neg hne]
      rw [Tree.shape, Shape.newick]
      simp

/-- **`WriteNewick` writes the topologies of a forest.** -/
theorem writeNewick_eq {s : Store} {width : ℕ} {F : Forest} (hF : F.WellFormed width s) (hm : F.Mapped s) {fuel : ℕ}
    (hfuel : ∀ t ∈ F, t.shape.steps < fuel) : writeNewick fuel s = some (Newick.text (F.map Tree.shape)) := by
  have key : ∀ G : Forest, (∀ t ∈ G, t ∈ F) → ∀ stream,
      writeTrees s fuel (G.map Tree.ptr) stream = some (stream ++ Newick.text (G.map Tree.shape)) := by
    intro G
    induction G with
    | nil => exact fun _ stream => by simp [writeTrees, Newick.text]
    | cons t G ih =>
        intro hG stream
        have ht := hG t (List.mem_cons_self ..)
        have hst := hF.stored.trees t ht
        have hnd : t.ptrs.Nodup := (List.nodup_flatMap.1 hF.valid.nodup).1 t ht
        obtain ⟨k, hk⟩ : ∃ k, fuel = t.shape.steps + (k + 1) :=
          ⟨fuel - t.shape.steps - 1, by have := hfuel t ht; omega⟩
        have hroot : writeTree s fuel t.ptr true stream = some (stream ++ t.shape.newick) := by
          rw [hk, writeTree_subtree hst hnd fun p x m h =>
            (hm.terminalToLabel p x).2 ⟨m, Forest.mem_subtrees.2 ⟨t, ht, h⟩⟩, writeTree, hst.root]
          rfl
        rw [List.map_cons, writeTrees, hroot]
        refine (ih (fun u hu => hG u (List.mem_cons_of_mem _ hu)) _).trans ?_
        simp [Newick.text]
  rw [writeNewick, hF.stored.roots, key F fun _ h => h]
  rfl

/-! ### The comparison -/

/-- What `operator==` reads of a forest: its roots, the children of its nodes and the
labels of its terminals. -/
structure Laid (s : Store) (F : Forest) : Prop where
  roots : s.roots = F.map Tree.ptr
  linked : ∀ t ∈ F, t.Linked s.nodes
  terminalToLabel : ∀ p x m, Tree.leaf p x m ∈ F.subtrees → s.terminalToLabel p = some x

/-- **`compareSubtrees` compares topologies.** -/
theorem compareSubtrees_eq {s s' : Store} {t u : Tree} (ht : t.Linked s.nodes) (hu : u.Linked s'.nodes)
    (hlab : ∀ p x m, Tree.leaf p x m ∈ t.subtrees → s.terminalToLabel p = some x)
    (hlab' : ∀ p x m, Tree.leaf p x m ∈ u.subtrees → s'.terminalToLabel p = some x) {fuel : ℕ}
    (hfuel : t.shape.size ≤ fuel) : compareSubtrees s s' fuel t.ptr u.ptr = some (decide (t.shape = u.shape)) := by
  obtain ⟨fuel, rfl⟩ : ∃ k, fuel = k + 1 := ⟨fuel - 1, by have := t.shape.size_pos; omega⟩
  induction t generalizing u fuel with
  | leaf p x m =>
      obtain ⟨hpl, hpr⟩ := ht
      cases u with
      | leaf q y m' =>
          obtain ⟨hql, hqr⟩ := hu
          rw [Tree.ptr_leaf, Tree.ptr_leaf, compareSubtrees, hpl, hpr, hql, hqr, hlab p x m (Tree.mem_subtrees_self _),
            hlab' q y m' (Tree.mem_subtrees_self _)]
          simp [Tree.shape]
      | node q l r =>
          rw [Tree.ptr_leaf, Tree.ptr_node, compareSubtrees, hpl, hpr, hu.1.1, hu.1.2]
          simp [Tree.shape]
  | node p l r ihl ihr =>
      obtain ⟨⟨hpl, hpr⟩, htl, htr⟩ := ht
      cases u with
      | leaf q y m' =>
          rw [Tree.ptr_leaf, Tree.ptr_node, compareSubtrees, hpl, hpr, hu.1, hu.2]
          simp [Tree.shape]
      | node q l' r' =>
          obtain ⟨⟨hql, hqr⟩, hul, hur⟩ := hu
          rw [Tree.shape, Shape.size] at hfuel
          obtain ⟨fuel, rfl⟩ : ∃ k, fuel = k + 1 := ⟨fuel - 1, by have := l.shape.size_pos; omega⟩
          have hl := ihl htl hul (fun a x m h => hlab a x m (Tree.mem_subtrees_node.2 (Or.inr (Or.inl h))))
            (fun a x m h => hlab' a x m (Tree.mem_subtrees_node.2 (Or.inr (Or.inl h)))) fuel (by omega)
          have hr := ihr htr hur (fun a x m h => hlab a x m (Tree.mem_subtrees_node.2 (Or.inr (Or.inr h))))
            (fun a x m h => hlab' a x m (Tree.mem_subtrees_node.2 (Or.inr (Or.inr h)))) fuel (by omega)
          rw [Tree.ptr_node, Tree.ptr_node, compareSubtrees, hpl, hpr, hql, hqr]
          simp only [Tree.shape, Shape.join.injEq, reduceCtorEq, and_false,
            not_true_eq_false, if_false, hl, hr, Option.bind_eq_bind, Option.bind_some, iff_self]
          by_cases h : l.shape = l'.shape <;> simp [h]

/-- **`operator==` compares the topologies of two forests.** -/
theorem Laid.equal_eq {s s' : Store} {F G : Forest} (hF : Laid s F) (hG : Laid s' G) {fuel : ℕ}
    (hfuel : ∀ t ∈ F, t.shape.size ≤ fuel) :
    equal fuel s s' = some (decide (F.map Tree.shape = G.map Tree.shape)) := by
  have key : ∀ A B : Forest, (∀ t ∈ A, t ∈ F) → (∀ t ∈ B, t ∈ G) → A.length = B.length →
      compareRoots s s' fuel (A.map Tree.ptr) (B.map Tree.ptr) =
          some (decide (A.map Tree.shape = B.map Tree.shape)) := by
    intro A
    induction A with
    | nil =>
        intro B _ _ hlen
        obtain rfl := List.length_eq_zero_iff.1 hlen.symm
        rfl
    | cons t A ih =>
        intro B hA hB hlen
        cases B with
        | nil => cases hlen
        | cons u B =>
            have ht := hA t (List.mem_cons_self ..)
            have hu := hB u (List.mem_cons_self ..)
            have h := compareSubtrees_eq (hF.linked t ht) (hG.linked u hu)
              (fun p x m h => hF.terminalToLabel p x m (Forest.mem_subtrees.2 ⟨t, ht, h⟩))
              (fun p x m h => hG.terminalToLabel p x m (Forest.mem_subtrees.2 ⟨u, hu, h⟩)) (hfuel t ht)
            rw [List.map_cons, List.map_cons, compareRoots, h, ih B (fun v hv => hA v (List.mem_cons_of_mem _ hv))
              (fun v hv => hB v (List.mem_cons_of_mem _ hv)) (Nat.succ.inj hlen)]
            by_cases hs : t.shape = u.shape <;> simp [hs]
  rw [equal, hF.roots, hG.roots, List.length_map, List.length_map]
  split_ifs with hlen
  · have hne : F.map Tree.shape ≠ G.map Tree.shape := fun h => hlen (by simpa using congrArg List.length h)
    simp [hne]
  · exact key F G (fun _ h => h) (fun _ h => h) (not_not.1 hlen)

/-- A well-formed forest is laid out in memory. -/
theorem laid_of_wellFormed {s : Store} {width : ℕ} {F : Forest} (hF : F.WellFormed width s) (hm : F.Mapped s) :
    Laid s F :=
  ⟨hF.stored.roots, fun t ht => (hF.stored.trees t ht).linked, fun p x m h => (hm.terminalToLabel p x).2 ⟨m, h⟩⟩

/-! ### The round trip -/

/-- Trees in a row have the sorted topologies. -/
theorem map_shape_row (p : Ptr) (ts : List Shape) :
    (Shape.row (fun p t => t.place p) p ts).map Tree.shape = ts.map Shape.sort := by
  induction ts generalizing p with
  | nil => rfl
  | cons t ts ih => rw [Shape.row, List.map_cons, List.map_cons, ih, Shape.shape_place]

/-- **Reading sorts the topologies.** -/
theorem map_shape_sorted (ts : List Shape) :
    (sorted ts).map Tree.shape = (ts.map Shape.sort).insertionSort fun t u => t.least < u.least := by
  rw [← map_shape_row 0 ts]
  exact List.map_insertionSort _ _ _ _ fun t _ u _ => by rw [Tree.least_shape, Tree.least_shape]

/-- The topologies of a valid forest are distinct. -/
theorem allDistinct_shape {F : Forest} (hF : F.Valid) : Shape.AllDistinct (F.map Tree.shape) := by
  constructor
  · intro t ht
    obtain ⟨u, hu, rfl⟩ := List.mem_map.1 ht
    exact (hF.tree u hu).normal_shape.distinct
  · refine List.pairwise_map.2 (hF.disjoint.imp fun {t u} h => ?_)
    rw [Tree.labels_shape, Tree.labels_shape]
    exact h.mono (Tree.labels_subset_subtreeTerminals t) (Tree.labels_subset_subtreeTerminals u)

/-- A valid forest is sorted. -/
theorem map_shape_sorted_of_valid {F : Forest} (hF : F.Valid) :
    (sorted (F.map Tree.shape)).map Tree.shape = F.map Tree.shape := by
  have hsort : (F.map Tree.shape).map Shape.sort = F.map Tree.shape := by
    rw [List.map_map]
    exact List.map_congr_left fun t ht => (hF.tree t ht).normal_shape.sort_eq
  rw [map_shape_sorted, hsort]
  refine List.Pairwise.insertionSort_eq (List.pairwise_map.2 (hF.sorted.imp fun {t u} h => ?_))
  rwa [Tree.least_shape, Tree.least_shape]

/-- Twice the number of labels. -/
theorem sizes_add_length {ts : List Shape} (hts : ∀ t ∈ ts, t.Distinct) :
    Shape.sizes ts + ts.length = 2 * (ts.map fun t => t.labels.card).sum := by
  induction ts with
  | nil => rfl
  | cons t ts ih =>
      have ht := Shape.size_succ (hts t (List.mem_cons_self ..))
      have h := ih fun u hu => hts u (List.mem_cons_of_mem _ hu)
      rw [Shape.sizes] at h ⊢
      rw [List.map_cons, List.sum_cons, List.map_cons, List.sum_cons, List.length_cons]
      omega

/-- The labels of a forest are those of its trees. -/
theorem sum_card_labels {F : Forest} (hF : F.Distinct) :
    ((F.map Tree.shape).map fun t => t.labels.card).sum = F.labels.card := by
  induction F with
  | nil => rfl
  | cons t F ih =>
      rw [List.map_cons, List.map_cons, List.sum_cons, ih hF.2.1, Tree.labels_shape, Forest.labels,
        Finset.card_union_of_disjoint hF.2.2]

/-- A forest has the size of its topologies. -/
theorem length_ptrs (F : Forest) : F.ptrs.length = Shape.sizes (F.map Tree.shape) := by
  induction F with
  | nil => rfl
  | cons t F ih =>
      rw [Forest.ptrs, List.flatMap_cons, List.length_append, Tree.length_ptrs, List.map_cons, Shape.sizes,
        List.map_cons, List.sum_cons]
      exact congrArg _ ih

/-- **The order of the roots is defined** if and only if their smallest labels lie in
one word. -/
theorem evalNewick_eq {text : List Char} {n r : ℕ} {s : Store} {size width : ℕ} {G : Forest}
    (hread : readNewick text n r = .ok (s, size)) (hG : G.WellFormed width s) : evalNewick text n r =
      if ∀ t ∈ G, ∀ u ∈ G, wordOf t.least = wordOf u.least then .ok (s, size) else .error .undefined := by
  have hsome : (s.roots.all fun a => s.roots.all fun b => (s.nodes.evalSmallestTerminal a b).isSome) = true ↔
      ∀ t ∈ G, ∀ u ∈ G, wordOf t.least = wordOf u.least := by
    simp only [hG.stored.roots, List.all_map, List.all_eq_true, Function.comp_apply]
    refine forall₂_congr fun t ht => forall₂_congr fun u hu => ?_
    rw [hG.evalSmallestTerminal ht hu]
    split_ifs with hor
    · exact iff_of_true rfl (hor.elim (congrArg wordOf) id)
    · exact iff_of_false (by simp) fun h => hor (Or.inr h)
  rw [evalNewick, hread]
  simp only [bind, Except.bind, hsome]

/-- The smallest labels of a forest are those of its topologies. -/
theorem oneWord_shape (F : Forest) : (∀ t ∈ F, ∀ u ∈ F, wordOf t.least = wordOf u.least) ↔
    ∀ t ∈ F.map Tree.shape, ∀ u ∈ F.map Tree.shape, wordOf t.least = wordOf u.least := by
  simp only [List.forall_mem_map, Tree.least_shape]

/-- Sorting keeps the smallest labels. -/
theorem oneWord_sorted (ts : List Shape) :
    (∀ t ∈ sorted ts, ∀ u ∈ sorted ts, wordOf t.least = wordOf u.least) ↔
      ∀ t ∈ ts, ∀ u ∈ ts, wordOf t.least = wordOf u.least := by
  have hmem : ∀ t, t ∈ (sorted ts).map Tree.shape ↔ t ∈ ts.map Shape.sort := fun t => by
    rw [map_shape_sorted, List.mem_insertionSort]
  rw [oneWord_shape]
  simp only [hmem, List.forall_mem_map, Shape.least_sort]

/-- What was written is read back. -/
theorem read_written {width : ℕ} {F : Forest} {s : Store} {fuel : ℕ} (hF : F.Fresh width s) (hne : F ≠ [])
    (h31 : ∀ x ∈ F.labels, x < 2 ^ 31) (hcard : F.labels.card < 2 ^ 30) (hfuel : 3 * F.ptrs.length ≤ fuel) :
    ∃ text s' size width' G, writeNewick fuel s = some text ∧
      readNewick text F.labels.card F.length = .ok (s', size) ∧
      (evalNewick text F.labels.card F.length = .ok (s', size) ↔ ∀ t ∈ F, ∀ u ∈ F, wordOf t.least = wordOf u.least) ∧
      size ≤ 2 * F.labels.card - 1 ∧ Forest.Fresh width' s' G ∧
        equal fuel s' s = some true ∧ writeNewick fuel s' = some text := by
  obtain ⟨hwf, hm, -⟩ := hF
  have hts := allDistinct_shape hwf.valid
  have hmem : ∀ t ∈ F, ∀ x ∈ t.shape.labels, x ∈ F.labels := fun t ht x hx =>
    Forest.mem_labels.2 ⟨t, ht, by rwa [Tree.labels_shape] at hx⟩
  have hlab : ∀ t ∈ F.map Tree.shape, ∀ x ∈ t.labels, 0 < x ∧ x < 2 ^ 31 := by
    intro t ht x hx
    obtain ⟨u, hu, rfl⟩ := List.mem_map.1 ht
    exact ⟨hwf.valid.label_pos (hmem u hu x hx), h31 x (hmem u hu x hx)⟩
  have hpos : 0 < F.length := List.length_pos_iff.2 hne
  have hcount := sizes_add_length hts.1
  rw [sum_card_labels hwf.valid.distinct, List.length_map] at hcount
  have hlex := Newick.lexTrees_text fun t ht x hx => (hlab t ht x hx).2
  rw [List.length_map] at hlex
  obtain ⟨s', width', hread, hG⟩ := readNewick_events hts (by simpa using hne) hlab (n := F.labels.card)
    (by omega) hcard (by omega) hlex
  have hshape := map_shape_sorted_of_valid hwf.valid
  have hsize : ∀ t ∈ F, t.shape.size ≤ Shape.sizes (F.map Tree.shape) := fun t ht =>
    Shape.size_le_sizes (List.mem_map_of_mem ht)
  rw [length_ptrs] at hfuel
  have hmem' : ∀ t ∈ sorted (F.map Tree.shape), ∃ u ∈ F, u.shape = t.shape := fun t ht =>
    List.mem_map.1 (hshape ▸ List.mem_map_of_mem ht)
  have heval := evalNewick_eq hread hG.wellFormed
  have hword := (oneWord_sorted (F.map Tree.shape)).trans (oneWord_shape F).symm
  refine ⟨_, s', _, width', _, writeNewick_eq hwf hm fun t ht => ?_, hread, ?_, by omega, hG, ?_, ?_⟩
  · have h₁ := t.shape.steps_lt
    have h₂ := hsize t ht
    omega
  · rw [heval, ← hword]
    split_ifs with h
    · exact iff_of_true rfl h
    · exact iff_of_false (by simp) h
  · rw [(laid_of_wellFormed hG.wellFormed hG.mapped).equal_eq (laid_of_wellFormed hwf hm) fun t ht => ?_, hshape]
    · simp
    · obtain ⟨u, hu, hut⟩ := hmem' t ht
      have h := hsize u hu
      rw [hut] at h
      omega
  · rw [writeNewick_eq hG.wellFormed hG.mapped fun t ht => ?_, hshape]
    obtain ⟨u, hu, hut⟩ := hmem' t ht
    have h₁ := u.shape.steps_lt
    have h₂ := hsize u hu
    rw [hut] at h₁ h₂
    omega

/-- The order of children in a text does not matter. -/
theorem read_swapped {ts ts' : List Shape} (hswap : List.Forall₂ Shape.Swap ts ts') (hts : Shape.AllDistinct ts)
    (hne : ts ≠ []) (hlab : ∀ t ∈ ts, ∀ x ∈ t.labels, 0 < x ∧ x < 2 ^ 31) {text text' : List Char} {n r fuel : ℕ}
    (hlex : lexTrees r (Newick.lines text) = .ok (ts.map Shape.events))
    (hlex' : lexTrees r (Newick.lines text') = .ok (ts'.map Shape.events))
    (hn : (ts.map fun t => t.labels.card).sum ≤ n) (hn' : n < 2 ^ 30) (hfuel : Shape.sizes ts ≤ fuel) :
    ∃ s s' size width width' G G', readNewick text n r = .ok (s, size) ∧ readNewick text' n r = .ok (s', size) ∧
      (evalNewick text n r = .ok (s, size) ∧ evalNewick text' n r = .ok (s', size) ↔
        ∀ t ∈ ts, ∀ u ∈ ts, wordOf t.least = wordOf u.least) ∧
      size ≤ 2 * n - 1 ∧ Forest.Fresh width s G ∧ Forest.Fresh width' s' G' ∧ equal fuel s s' = some true := by
  obtain ⟨hts', hsort⟩ := Shape.allDistinct_swap hswap hts
  have hne' : ts' ≠ [] := by
    rintro rfl
    cases hswap
    exact hne rfl
  have hlab' : ∀ t ∈ ts', ∀ x ∈ t.labels, 0 < x ∧ x < 2 ^ 31 := by
    intro t ht x hx
    obtain ⟨u, hu, hut⟩ := Shape.exists_swap hswap ht
    exact hlab u hu x (hut.labels ▸ hx)
  have hpos : 0 < ts.length := List.length_pos_iff.2 hne
  have hcount := sizes_add_length hts.1
  have hsizes : Shape.sizes ts' = Shape.sizes ts := by
    rw [Shape.sizes, Shape.sizes, Shape.map_size_swap hswap]
  obtain ⟨s, width, hread, hG⟩ := readNewick_events hts hne hlab (n := n) (by omega) hn' (by omega) hlex
  obtain ⟨s', width', hread', hG'⟩ := readNewick_events hts' hne' hlab' (n := n) (by omega) hn' (by omega) hlex'
  rw [hsizes] at hread'
  have hshape : (sorted ts).map Tree.shape = (sorted ts').map Tree.shape := by
    rw [map_shape_sorted, map_shape_sorted, hsort]
  have hword := oneWord_sorted ts
  have hword' : (∀ t ∈ sorted ts', ∀ u ∈ sorted ts', wordOf t.least = wordOf u.least) ↔
      ∀ t ∈ ts, ∀ u ∈ ts, wordOf t.least = wordOf u.least := by
    rw [oneWord_shape, ← hshape, ← oneWord_shape, hword]
  refine ⟨s, s', _, width, width', _, _, hread, hread', ?_, by omega, hG, hG', ?_⟩
  · simp only [evalNewick_eq hread hG.wellFormed, evalNewick_eq hread' hG'.wellFormed, hword, hword']
    split_ifs with h
    · exact iff_of_true ⟨rfl, rfl⟩ h
    · exact iff_of_false (by simp) h
  · rw [(laid_of_wellFormed hG.wellFormed hG.mapped).equal_eq (laid_of_wellFormed hG'.wellFormed hG'.mapped)
      fun t ht => ?_, hshape]
    · simp
    · obtain ⟨q, u, hu, rfl⟩ := Shape.mem_row ((sorted_perm ts).mem_iff.1 ht)
      rw [← Tree.length_ptrs, (Shape.ptrs_place q u).length_eq, List.length_range']
      exact (Shape.size_le_sizes hu).trans hfuel

/-- **Newick round trip.**  A forest with at least one and less than `2 ^ 30` labels
is read back from the text that was written of it, with an equal forest and the
same text again; and texts that differ in the order of children are read as equal
forests.

`readNewick` reads `__builtin_ctzll(0)` as `64`.  The result is the same without
this reading if and only if the smallest labels of all trees lie in one word of 64
labels; else `ReadNewick` is undefined. -/
theorem readNewick_writeNewick :
    (∀ (width : ℕ) (F : Forest) (s : Store) (fuel : ℕ), F.Fresh width s → F ≠ [] → (∀ x ∈ F.labels, x < 2 ^ 31) →
      F.labels.card < 2 ^ 30 → 3 * F.ptrs.length ≤ fuel →
      ∃ text s' size width' G, writeNewick fuel s = some text ∧
        readNewick text F.labels.card F.length = .ok (s', size) ∧
        (evalNewick text F.labels.card F.length = .ok (s', size) ↔
          ∀ t ∈ F, ∀ u ∈ F, wordOf t.least = wordOf u.least) ∧
        size ≤ 2 * F.labels.card - 1 ∧ Forest.Fresh width' s' G ∧ equal fuel s' s = some true ∧
        writeNewick fuel s' = some text) ∧
    (∀ (ts ts' : List Shape) (text text' : List Char) (n r fuel : ℕ),
      lexTrees r (Newick.lines text) = .ok (ts.map Shape.events) →
      lexTrees r (Newick.lines text') = .ok (ts'.map Shape.events) → List.Forall₂ Shape.Swap ts ts' →
      Shape.AllDistinct ts → ts ≠ [] → (∀ t ∈ ts, ∀ x ∈ t.labels, 0 < x ∧ x < 2 ^ 31) →
      (ts.map fun t => t.labels.card).sum ≤ n → n < 2 ^ 30 → Shape.sizes ts ≤ fuel →
      ∃ s s' size width width' G G', readNewick text n r = .ok (s, size) ∧ readNewick text' n r = .ok (s', size) ∧
        (evalNewick text n r = .ok (s, size) ∧ evalNewick text' n r = .ok (s', size) ↔
          ∀ t ∈ ts, ∀ u ∈ ts, wordOf t.least = wordOf u.least) ∧
        size ≤ 2 * n - 1 ∧ Forest.Fresh width s G ∧ Forest.Fresh width' s' G' ∧ equal fuel s s' = some true) :=
  ⟨fun _ _ _ _ hF hne h31 hcard hfuel => read_written hF hne h31 hcard hfuel,
    fun _ _ _ _ _ _ _ hlex hlex' hswap hts hne hlab hn hn' hfuel =>
      read_swapped hswap hts hne hlab hlex hlex' hn hn' hfuel⟩

/-- A cherry that is written and read back, and the texts `(2,1);` and `(1,2);`. -/
theorem readNewick_writeNewick_cherry :
    (∃ text s' size width' G,
      writeNewick 9 (Forest.toStore 1 [.node 0 (.leaf 1 1 ∅) (.leaf 2 2 ∅)]) = some text ∧
      readNewick text 2 1 = .ok (s', size) ∧
      (evalNewick text 2 1 = .ok (s', size) ↔ ∀ t ∈ ([.node 0 (.leaf 1 1 ∅) (.leaf 2 2 ∅)] : Forest),
        ∀ u ∈ ([.node 0 (.leaf 1 1 ∅) (.leaf 2 2 ∅)] : Forest), wordOf t.least = wordOf u.least) ∧
      size ≤ 3 ∧ Forest.Fresh width' s' G ∧
      equal 9 s' (Forest.toStore 1 [.node 0 (.leaf 1 1 ∅) (.leaf 2 2 ∅)]) = some true ∧
      writeNewick 9 s' = some text) ∧
    ∃ s s' size width width' G G', readNewick ['(', '2', ',', '1', ')', ';'] 2 1 = .ok (s, size) ∧
      readNewick ['(', '1', ',', '2', ')', ';'] 2 1 = .ok (s', size) ∧
      (evalNewick ['(', '2', ',', '1', ')', ';'] 2 1 = .ok (s, size) ∧
        evalNewick ['(', '1', ',', '2', ')', ';'] 2 1 = .ok (s', size) ↔
          ∀ t ∈ [Shape.join (.tip 2) (.tip 1)], ∀ u ∈ [Shape.join (.tip 2) (.tip 1)],
            wordOf t.least = wordOf u.least) ∧
      size ≤ 3 ∧ Forest.Fresh width s G ∧ Forest.Fresh width' s' G' ∧ equal 3 s s' = some true :=
  ⟨readNewick_writeNewick.1 1 [.node 0 (.leaf 1 1 ∅) (.leaf 2 2 ∅)] _ 9
      (Forest.toStore_fresh (by decide) (by decide) (by decide)) (by decide) (by decide) (by decide) (by decide),
    readNewick_writeNewick.2 [.join (.tip 2) (.tip 1)] [.join (.tip 1) (.tip 2)] _ _ 2 1 3 (by decide) (by decide)
      (.cons (.swap (.tip 2) (.tip 1)) .nil) ⟨by simp [Shape.Distinct], by simp⟩ (by decide) (by decide) (by decide)
      (by decide) (by decide)⟩

/-- Two trees with the labels `1` and `65`, as they are read. -/
theorem evalNewick_twoTerminals : evalNewick ['1', ';', '\n', '6', '5', ';', '\n'] 2 2 = .error .undefined := by
  have hlex : lexTrees 2 (Newick.lines ['1', ';', '\n', '6', '5', ';', '\n']) =
      .ok ([.tip 1, .tip 65].map Shape.events) := by decide
  have hdistinct : Shape.AllDistinct [.tip 1, .tip 65] := ⟨by simp [Shape.Distinct], by simp⟩
  have hfew : Shape.sizes [.tip 1, .tip 65] ≤ 2 * 2 - 1 := by decide
  obtain ⟨s, width, hread, hG⟩ :=
    readNewick_events hdistinct (by simp) (by simp) (by decide) (by decide) hfew hlex
  rw [evalNewick_eq hread hG.wellFormed, if_neg]
  rw [oneWord_sorted]
  decide

/-- **Without a label nothing is read**, neither with `2 ^ 30` or more, and the two
trees with the labels `1` and `65` are undefined. -/
theorem exists_written_not_read :
    (∃ s, Forest.Fresh 0 s [] ∧ writeNewick 1 s = some [] ∧ ∀ s' size, readNewick [] 0 0 ≠ .ok (s', size)) ∧
      (∀ text n r s' size, 2 ^ 30 ≤ n → readNewick text n r ≠ .ok (s', size)) ∧
      ∃ text, Forest.Fresh 2 ((twoTerminals 1 65).toStore 2) (twoTerminals 1 65) ∧
        writeNewick 6 ((twoTerminals 1 65).toStore 2) = some text ∧ evalNewick text 2 2 = .error .undefined := by
  refine ⟨⟨Forest.toStore 0 [], Forest.toStore_fresh (by decide) (by decide) (by decide), rfl, fun s' size h => ?_⟩,
    fun text n r s' size hn h => ?_, ['1', ';', '\n', '6', '5', ';', '\n'], ?_, by decide, evalNewick_twoTerminals⟩
  · cases h
  · rw [readNewick, if_neg (by omega), if_pos (by omega)] at h
    cases h
  · have hF : (twoTerminals 1 65).WellFormed 2 ((twoTerminals 1 65).toStore 2) :=
      wellFormed_twoTerminals (by decide) (by decide) (by decide)
    exact Forest.toStore_fresh hF.valid hF.within (by decide)

end Graph
end Maf
