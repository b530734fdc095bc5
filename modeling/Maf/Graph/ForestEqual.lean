/-
# Equal forests

`Forest::operator==` walks through two forests in step and compares the labels of
their terminals.  After `sortChildrenAndCollectTerminals` this decides whether the
forests are the same collection of the same trees, in whatever order children and
trees were stored before (`equal_sorted`): sorting leaves the order by smallest
labels, and in this order two forests that are the same are so position by position
(`forall₂_of_rel`).
-/

import Maf.CommonSubtree
import Maf.Graph.RoundTrip

namespace Maf

open Bitset (Within)

/-- Lists in the strict order of a key that are the same up to the order of their
elements are so position by position. -/
theorem forall₂_of_rel {α : Type*} {r : α → α → Prop} {key : α → ℕ} {l l' : List α}
    (hl : l.Pairwise fun a b => key a < key b) (hl' : l'.Pairwise fun a b => key a < key b)
    (hkey : ∀ a ∈ l, ∀ b ∈ l', r a b → key a = key b) (h : Multiset.Rel r (l : Multiset α) (l' : Multiset α)) :
    List.Forall₂ r l l' := by
  induction l generalizing l' with
  | nil =>
      obtain rfl : l' = [] := by simpa using Multiset.rel_zero_left.1 h
      exact List.Forall₂.nil
  | cons a l ih =>
      cases l' with
      | nil => simpa using Multiset.card_eq_card_of_rel h
      | cons b l' =>
          rw [List.pairwise_cons] at hl hl'
          rw [← Multiset.cons_coe] at h
          obtain ⟨b', t, hab, hrest, heq⟩ := Multiset.rel_cons_left.1 h
          -- the partner of the least element is the least element
          have hb' : b' ∈ b :: l' := by
            have hmem : b' ∈ ((b :: l' : List α) : Multiset α) := heq ▸ Multiset.mem_cons_self b' t
            exact hmem
          have hleast : b' = b := by
            by_contra hne
            have hb'l : b' ∈ l' := (List.mem_cons.1 hb').resolve_left hne
            have hlt := hl'.1 b' hb'l
            have hkab := hkey a (List.mem_cons_self ..) b' hb' hab
            obtain ⟨a', hmem, ha'b⟩ : ∃ a' ∈ l, r a' b := by
              have hbt : b ∈ t := by
                have hmem : b ∈ b' ::ₘ t := heq ▸ (List.mem_cons_self .. : b ∈ b :: l')
                exact (Multiset.mem_cons.1 hmem).resolve_left (Ne.symm hne)
              obtain ⟨a', ha', hr⟩ := Multiset.exists_mem_of_rel_of_mem (Multiset.rel_flip.2 hrest) hbt
              exact ⟨a', ha', hr⟩
            have hka' := hkey a' (List.mem_cons_of_mem _ hmem) b (List.mem_cons_self ..) ha'b
            have hlt' := hl.1 a' hmem
            omega
          subst hleast
          obtain rfl : t = (l' : Multiset α) := by
            rw [← Multiset.cons_coe] at heq
            exact ((Multiset.cons_inj_right _).1 heq).symm
          exact List.Forall₂.cons hab (ih hl.2 hl'.2
            (fun x hx y hy => hkey x (List.mem_cons_of_mem _ hx) y (List.mem_cons_of_mem _ hy)) hrest)

namespace Tree

/-- A tree is the same after its children were sorted. -/
theorem identical_sort (t : Tree) : t.Identical t.sort := by
  induction t with
  | leaf => exact ⟨rfl, rfl⟩
  | node p l r ihl ihr =>
      rw [sort, sortedNode]
      split_ifs
      · exact Or.inr ⟨ihl, ihr⟩
      · exact Or.inl ⟨ihl, ihr⟩

/-- Sorting collapses no leaf. -/
theorem Uncollapsed.sort {t : Tree} (ht : t.Uncollapsed) : t.sort.Uncollapsed := fun p x m h =>
  ht p x m (mem_leaf_sort.1 h)

/-- Trees of one topology are identical. -/
theorem identical_of_shape_eq {s t : Tree} (hs : s.Uncollapsed) (ht : t.Uncollapsed) (h : s.shape = t.shape) :
    s.Identical t := by
  induction s generalizing t with
  | leaf p x m =>
      cases t with
      | node => cases h
      | leaf q y m' =>
          refine ⟨Shape.tip.inj h, ?_⟩
          rw [hs p x m (mem_subtrees_self _), ht q y m' (mem_subtrees_self _)]
  | node p l r ihl ihr =>
      cases t with
      | leaf => cases h
      | node q l' r' =>
          obtain ⟨hl, hr⟩ := Shape.join.inj h
          exact Or.inl ⟨
            ihl (fun a x m h => hs a x m (mem_subtrees_node.2 (Or.inr (Or.inl h))))
              (fun a x m h => ht a x m (mem_subtrees_node.2 (Or.inr (Or.inl h)))) hl,
            ihr (fun a x m h => hs a x m (mem_subtrees_node.2 (Or.inr (Or.inr h))))
              (fun a x m h => ht a x m (mem_subtrees_node.2 (Or.inr (Or.inr h)))) hr⟩

/-- **Identical valid trees have one topology.** -/
theorem Identical.shape_eq {s t : Tree} (hs : s.Valid) (ht : t.Valid) (h : s.Identical t) : s.shape = t.shape := by
  induction s generalizing t with
  | leaf p x m =>
      cases t with
      | leaf => exact congrArg Shape.tip h.1
      | node => exact h.elim
  | node p l r ihl ihr =>
      cases t with
      | leaf => exact h.elim
      | node q l' r' =>
          obtain ⟨hl, hr⟩ := (identical_node_iff hs ht).1 h
          rw [shape, shape, ihl hs.1 ht.1 hl, ihr hs.2.1 ht.2.1 hr]

end Tree

namespace Forest

/-- **The same forests**: the same trees in any order, with their children in any
order. -/
def Same (F G : Forest) : Prop := Multiset.Rel Tree.Identical (F : Multiset Tree) (G : Multiset Tree)

/-- A forest is the same as itself. -/
theorem Same.refl (F : Forest) : F.Same F := Multiset.rel_refl_of_refl_on fun t _ => Tree.Identical.refl t

/-- Being the same forest is symmetric. -/
theorem Same.symm {F G : Forest} (h : F.Same G) : G.Same F :=
  Multiset.rel_flip.1 (h.mono fun _ _ _ _ h => Tree.Identical.symm h)

/-- Being the same forest is transitive. -/
theorem Same.trans {F G H : Forest} (h : F.Same G) (h' : G.Same H) : F.Same H := by
  have : IsTrans Tree Tree.Identical := ⟨fun _ _ _ => Tree.Identical.trans⟩
  exact Multiset.Rel.trans _ h h'

/-- Forests with identical trees in the same order are the same. -/
theorem same_of_forall₂ {F G : Forest} (h : List.Forall₂ Tree.Identical F G) : F.Same G := by
  induction h with
  | nil => exact Multiset.Rel.zero
  | cons hab _ ih => exact Multiset.Rel.cons hab ih

/-- The order of the trees does not matter. -/
theorem same_of_perm {F G : Forest} (h : F.Perm G) : F.Same G := by
  rw [Same, Multiset.coe_eq_coe.2 h]
  exact Same.refl G

/-- A forest is the same after it was sorted. -/
theorem same_sort (F : Forest) : F.Same F.sort := by
  refine Same.trans (same_of_forall₂ ?_) (same_of_perm (sort_perm F).symm)
  exact List.forall₂_map_right_iff.2 (List.forall₂_same.2 fun t _ => t.identical_sort)

/-- Valid trees have the same topologies position by position when they are identical. -/
theorem map_shape_eq_iff_forall₂ {F G : Forest} (hF : ∀ t ∈ F, t.Valid ∧ t.Uncollapsed)
    (hG : ∀ t ∈ G, t.Valid ∧ t.Uncollapsed) :
    F.map Tree.shape = G.map Tree.shape ↔ List.Forall₂ Tree.Identical F G := by
  induction F generalizing G with
  | nil => simp [eq_comm]
  | cons t F ih =>
      cases G with
      | nil => simp
      | cons u G =>
          rw [List.forall_mem_cons] at hF hG
          rw [List.map_cons, List.map_cons, List.cons_eq_cons, List.forall₂_cons, ih hF.2 hG.2]
          exact and_congr_left fun _ =>
            ⟨Tree.identical_of_shape_eq hF.1.2 hG.1.2, Tree.Identical.shape_eq hF.1.1 hG.1.1⟩

/-- **Sorted forests are the same when their trees have the same topologies in the
same order.** -/
theorem map_shape_eq_iff {F G : Forest} (hF : F.Valid) (hG : G.Valid) (hFu : ∀ t ∈ F, t.Uncollapsed)
    (hGu : ∀ t ∈ G, t.Uncollapsed) : F.map Tree.shape = G.map Tree.shape ↔ F.Same G := by
  rw [map_shape_eq_iff_forall₂ (fun t ht => ⟨hF.tree t ht, hFu t ht⟩) fun t ht => ⟨hG.tree t ht, hGu t ht⟩]
  exact ⟨same_of_forall₂, forall₂_of_rel hF.sorted hG.sorted fun s hs t ht =>
    Tree.Identical.least_eq (hF.tree s hs) (hG.tree t ht)⟩

end Forest

namespace Graph

/-- **The memory before the forest `F` is sorted**: roots, children and labels are
those of `F`, in any order, and no terminal has a word but that of its label.  Labels
are positive and fit into an `int`. -/
structure Reader.Holds (σ : Reader) (F : Forest) : Prop where
  roots : σ.roots = F.map Tree.ptr
  linked : ∀ t ∈ F, t.Linked σ.nodes
  terminalToLabel : ∀ u ∈ F.subtrees, σ.terminalToLabel u.ptr = u.terminalToLabel
  labels : ∀ x, x ∈ σ.labels ↔ x ∈ F.labels
  blank : ∀ p x m, Tree.leaf p x m ∈ F.subtrees → Blank σ.nodes p x
  size : F.subtrees.length ≤ σ.size
  distinct : F.Distinct
  nodup : F.ptrs.Nodup
  uncollapsed : ∀ t ∈ F, t.Uncollapsed
  label : ∀ x ∈ F.labels, 0 < x ∧ x < 2 ^ 31

/-- **`sortChildrenAndCollectTerminals` leaves the sorted forest.** -/
theorem Reader.Holds.exists_sorted {σ : Reader} {F : Forest} (h : σ.Holds F) (hne : F ≠ []) :
    ∃ s, sortChildrenAndCollectTerminals σ = .ok s ∧ Laid s F.sort := by
  obtain ⟨t₀, ht₀⟩ := List.exists_mem_of_ne_nil F hne
  have hkey : t₀.least ∈ σ.labels := (h.labels _).2 (Forest.mem_labels.2 ⟨t₀, ht₀, t₀.least_mem_labels⟩)
  obtain ⟨maxLabel, hmax⟩ : ∃ maxLabel, σ.labels.max? = some maxLabel := by
    cases hm : σ.labels.max? with
    | none =>
        rw [List.max?_eq_none_iff.1 hm] at hkey
        cases hkey
    | some maxLabel => exact ⟨maxLabel, rfl⟩
  have hmem : ∀ t ∈ F, ∀ x ∈ t.labels, x ∈ F.labels := fun t ht x hx => Forest.mem_labels.2 ⟨t, ht, hx⟩
  have hw : ∀ t ∈ F, Within ((maxLabel + 63) / 64) t.labels := by
    intro t ht x hx
    have hle : x ≤ maxLabel := (List.max?_eq_some_iff.1 hmax).2 x ((h.labels x).2 (hmem t ht x hx))
    exact ⟨(h.label x (hmem t ht x hx)).1, by omega⟩
  obtain ⟨h', hrun, hnodes, -⟩ := orderSubtrees_spec h.linked h.nodup h.terminalToLabel h.uncollapsed
    h.blank hw (fun t ht x hx => (h.label x (hmem t ht x hx)).2.trans (by norm_num)) h.size
  refine ⟨_, by rw [sortChildrenAndCollectTerminals, hmax, h.roots]; simp only [hrun, bind, Except.bind]; rfl, ?_,
    ?_, ?_⟩
  · refine (Forest.map_ptr_sort h.distinct h.nodup h.uncollapsed hw fun t ht => ?_).symm
    have hroot := hnodes t ht t.sort (Tree.mem_subtrees_self _)
    rw [Tree.ptr_sort] at hroot
    rw [hroot, Tree.record, Tree.subtreeTerminals_sort]
  · intro t ht
    obtain ⟨u, hu, rfl⟩ := Forest.mem_sort.1 ht
    refine Tree.linked_iff.2 fun v hv => ?_
    show (h' v.ptr).leftChild = _ ∧ (h' v.ptr).rightChild = _
    rw [hnodes u hu v hv]
    exact ⟨rfl, rfl⟩
  · intro p x m hx
    exact (h.terminalToLabel _ (Forest.mem_leaf_sort.1 hx)).trans rfl

/-- A forest on which `sortChildrenAndCollectTerminals` has been run, and its memory. -/
def IsSorted (s : Store) (F : Forest) : Prop :=
  ∃ σ : Reader, σ.Holds F ∧ sortChildrenAndCollectTerminals σ = .ok s

/-- A sorted forest has a tree. -/
theorem IsSorted.ne_nil {s : Store} {F : Forest} (h : IsSorted s F) : F ≠ [] := by
  rintro rfl
  obtain ⟨σ, hσ, hs⟩ := h
  have hnil : σ.labels = [] := List.eq_nil_iff_forall_not_mem.2 fun x hx => by simpa using (hσ.labels x).1 hx
  rw [sortChildrenAndCollectTerminals, hnil] at hs
  cases hs

/-- A sorted forest is laid out in memory. -/
theorem IsSorted.laid {s : Store} {F : Forest} (h : IsSorted s F) : Laid s F.sort := by
  obtain ⟨σ, hσ, hs⟩ := id h
  obtain ⟨s', hs', hlaid⟩ := hσ.exists_sorted h.ne_nil
  rw [hs] at hs'
  exact Except.ok.inj hs' ▸ hlaid

/-- A sorted forest is valid and has no collapsed leaf. -/
theorem IsSorted.valid {s : Store} {F : Forest} (h : IsSorted s F) :
    F.sort.Valid ∧ ∀ t ∈ F.sort, t.Uncollapsed := by
  obtain ⟨σ, hσ, -⟩ := h
  refine ⟨Forest.valid_sort hσ.distinct hσ.nodup hσ.uncollapsed fun x hx => (hσ.label x hx).1, fun t ht => ?_⟩
  obtain ⟨u, hu, rfl⟩ := Forest.mem_sort.1 ht
  exact (hσ.uncollapsed u hu).sort

/-- **`operator==` decides whether two sorted forests are the same.** -/
theorem IsSorted.equal_eq {s s' : Store} {F F' : Forest} (h : IsSorted s F) (h' : IsSorted s' F') {fuel : ℕ}
    (hfuel : F.ptrs.length ≤ fuel) : ∃ b, equal fuel s s' = some b ∧ (b = true ↔ F.Same F') := by
  refine ⟨_, h.laid.equal_eq h'.laid fun t ht => ?_, ?_⟩
  · rw [← Tree.length_ptrs]
    refine le_trans ?_ ((Forest.ptrs_sort F).length_eq ▸ hfuel)
    rw [Forest.ptrs, List.length_flatMap]
    exact List.single_le_sum (fun _ _ => Nat.zero_le _) _ (List.mem_map_of_mem ht)
  · rw [decide_eq_true_iff, Forest.map_shape_eq_iff h.valid.1 h'.valid.1 h.valid.2 h'.valid.2]
    exact ⟨fun hs => (Forest.same_sort F).trans (hs.trans (Forest.same_sort F').symm),
      fun hs => (Forest.same_sort F).symm.trans (hs.trans (Forest.same_sort F'))⟩

/-- **Equal forests.**  After `sortChildrenAndCollectTerminals`, which every forest
with a tree can be given to, `operator==` holds exactly for forests that are the same
collection of the same trees, and it is an equivalence. -/
theorem equal_sorted :
    (∀ (σ : Reader) (F : Forest), σ.Holds F → F ≠ [] → ∃ s, sortChildrenAndCollectTerminals σ = .ok s) ∧
    (∀ (s s' : Store) (F F' : Forest) (fuel : ℕ), IsSorted s F → IsSorted s' F' → F.ptrs.length ≤ fuel →
      ∃ b, equal fuel s s' = some b ∧ (b = true ↔ F.Same F')) ∧
    ∀ fuel, Equivalence fun s s' : {s : Store // ∃ F, IsSorted s F ∧ F.ptrs.length ≤ fuel} =>
      equal fuel s s' = some true := by
  refine ⟨fun σ F h hne => ?_, fun s s' F F' fuel h h' hfuel => h.equal_eq h' hfuel, fun fuel => ?_⟩
  · obtain ⟨s, hs, -⟩ := h.exists_sorted hne
    exact ⟨s, hs⟩
  · have key : ∀ {s s' : Store} {F F' : Forest}, IsSorted s F → IsSorted s' F' → F.ptrs.length ≤ fuel →
        (equal fuel s s' = some true ↔ F.Same F') := by
      intro s s' F F' h h' hfuel
      obtain ⟨b, hb, hiff⟩ := h.equal_eq h' hfuel
      rw [hb, Option.some.injEq, hiff]
    refine ⟨?_, ?_, ?_⟩
    · rintro ⟨s, F, hs, hF⟩
      exact (key hs hs hF).2 (Forest.Same.refl F)
    · rintro ⟨s, F, hs, hF⟩ ⟨s', F', hs', hF'⟩ h
      exact (key hs' hs hF').2 ((key hs hs' hF).1 h).symm
    · rintro ⟨s, F, hs, hF⟩ ⟨s', F', hs', hF'⟩ ⟨s'', F'', hs'', _⟩ h h'
      exact (key hs hs'' hF).2 (((key hs hs' hF).1 h).trans ((key hs' hs'' hF').1 h'))

/-- The memory of one cherry, with its children at `1` and `2`. -/
def cherryReader (x y : Label) : Reader where
  nodes p := if p = 0 then { leftChild := some 1, rightChild := some 2 } else {}
  size := 3
  terminalToLabel p := if p = 1 then some x else if p = 2 then some y else none
  labelToTerminal z := if z = x then some 1 else if z = y then some 2 else none
  labels := [x, y]
  roots := [0]

/-- The reader of a cherry holds the cherry. -/
theorem holds_cherryReader {x y : Label} (hx : 0 < x ∧ x < 2 ^ 31) (hy : 0 < y ∧ y < 2 ^ 31) (hxy : x ≠ y) :
    (cherryReader x y).Holds [.node 0 (.leaf 1 x ∅) (.leaf 2 y ∅)] where
  roots := rfl
  linked := by simp [cherryReader, Tree.Linked]
  terminalToLabel := by simp [Forest.subtrees, Tree.subtrees, cherryReader, Tree.terminalToLabel]
  labels := by simp [cherryReader]
  blank := by
    intro p z m hz i _
    have hp : (cherryReader x y).nodes p = if p = 0 then { leftChild := some 1, rightChild := some 2 } else {} := rfl
    rw [hp]
    split_ifs <;> rfl
  size := le_refl 3
  distinct := by simp [Forest.Distinct, hxy]
  nodup := by simp [Forest.ptrs]
  uncollapsed := by
    simp only [Tree.Uncollapsed, Tree.subtrees, forall_eq, List.mem_cons, List.mem_append,
      List.not_mem_nil, or_false]
    rintro p z m (h | h | h) <;> cases h <;> rfl
  label z hz := by
    have hz' : z = x ∨ z = y := by simpa using hz
    rcases hz' with rfl | rfl
    · exact hx
    · exact hy

/-- The cherries `(2,1)` and `(1,2)` are equal. -/
theorem equal_sorted_cherry :
    (∃ s, sortChildrenAndCollectTerminals (cherryReader 2 1) = .ok s) ∧
    ∃ s s', sortChildrenAndCollectTerminals (cherryReader 2 1) = .ok s ∧
      sortChildrenAndCollectTerminals (cherryReader 1 2) = .ok s' ∧
      ∃ b, equal 3 s s' = some b ∧ (b = true ↔ Forest.Same [.node 0 (.leaf 1 2 ∅) (.leaf 2 1 ∅)]
        [.node 0 (.leaf 1 1 ∅) (.leaf 2 2 ∅)]) := by
  have h₁ := holds_cherryReader (x := 2) (y := 1) (by decide) (by decide) (by decide)
  have h₂ := holds_cherryReader (x := 1) (y := 2) (by decide) (by decide) (by decide)
  obtain ⟨s, hs⟩ := equal_sorted.1 _ _ h₁ (by decide)
  obtain ⟨s', hs'⟩ := equal_sorted.1 _ _ h₂ (by decide)
  exact ⟨⟨s, hs⟩, s, s', hs, hs', equal_sorted.2.1 s s' _ _ 3 ⟨_, h₁, hs⟩ ⟨_, h₂, hs'⟩ (by decide)⟩

end Graph
end Maf
