/-
# One subtree in the place of another

`doAction` and `undoAction` of `src/Solver/Action/ShortenChainAction.cpp` both put another tree
`S` in the place of a subtree `U` of a forest (`replaceAt`): on the way down a part of `U`, on the
way back a tree with `U` in it.  Here are the labels, the addresses and the terminals of the forest
afterwards for any `S`, and what the memory must hold so that it holds the forest
(`Tree.Stored.swap`).

Taking `U` down to its subtree `L` and putting `U` back gives the same forest
(`Forest.replaceAt_replaceAt`).
-/

import Maf.Action.ShortenChainAction

namespace Maf

open Bitset (encode Within)
open Graph

namespace Tree

/-- The addresses of a tree are those of a subtree and others. -/
theorem exists_ptrs_perm {U t : Tree} (hU : U ∈ t.subtrees) : ∃ D, t.ptrs.Perm (U.ptrs ++ D) := by
  induction t with
  | leaf q x m => exact ⟨[], by rw [List.mem_singleton.1 hU, List.append_nil]⟩
  | node q l r ihl ihr =>
      rcases mem_subtrees_node.1 hU with rfl | hU | hU
      · exact ⟨[], by rw [List.append_nil]⟩
      · obtain ⟨D, hD⟩ := ihl hU
        refine ⟨q :: (D ++ r.ptrs), List.perm_iff_count.2 fun a => ?_⟩
        have := List.perm_iff_count.1 hD a
        simp only [ptrs, List.count_cons, List.count_append] at this ⊢
        omega
      · obtain ⟨D, hD⟩ := ihr hU
        refine ⟨q :: (l.ptrs ++ D), List.perm_iff_count.2 fun a => ?_⟩
        have := List.perm_iff_count.1 hD a
        simp only [ptrs, List.count_cons, List.count_append] at this ⊢
        omega

section Swap

variable {U S t : Tree} (hv : t.Valid) (hn : t.ptrs.Nodup) (hU : U ∈ t.subtrees)
include hv hn hU

/-- **The labels with `S` in the place of `U`.** -/
theorem swap_spec (hS : S.Valid) (hd : Disjoint (t.subtreeTerminals \ U.subtreeTerminals) S.subtreeTerminals) :
    (t.replaceAt U.ptr S).Valid ∧
      (t.replaceAt U.ptr S).subtreeTerminals = (t.subtreeTerminals \ U.subtreeTerminals) ∪ S.subtreeTerminals := by
  have out : ∀ {c o : Tree}, U ∈ c.subtrees → Disjoint c.subtreeTerminals o.subtreeTerminals →
      o.subtreeTerminals \ U.subtreeTerminals = o.subtreeTerminals := fun hc hd =>
    Finset.sdiff_eq_self_of_disjoint (hd.symm.mono_right (subtreeTerminals_subset_of_mem_subtrees hc))
  refine replaceAt_induction (motive := fun t t' =>
    Disjoint (t.subtreeTerminals \ U.subtreeTerminals) S.subtreeTerminals → t'.Valid ∧
      t'.subtreeTerminals = (t.subtreeTerminals \ U.subtreeTerminals) ∪ S.subtreeTerminals) ?_ ?_ ?_ hv hn hU hd
  · exact fun _ => ⟨hS, by rw [Finset.sdiff_self, Finset.empty_union]⟩
  · rintro q l r ⟨-, hr, hlr, -⟩ - hUl ih hd
    rw [subtreeTerminals, Finset.union_sdiff_distrib, out hUl hlr, Finset.disjoint_union_left] at hd
    obtain ⟨hl', hst⟩ := ih hd.1
    refine ⟨hl'.sortedNode hr ?_, ?_⟩
    · rw [hst, Finset.disjoint_union_left]
      exact ⟨hlr.mono_left Finset.sdiff_subset, hd.2.symm⟩
    · rw [subtreeTerminals_sortedNode, hst, subtreeTerminals, Finset.union_sdiff_distrib, out hUl hlr,
        Finset.union_right_comm]
  · rintro q l r ⟨hl, -, hlr, -⟩ - hUr ih hd
    rw [subtreeTerminals, Finset.union_sdiff_distrib, out hUr hlr.symm, Finset.disjoint_union_left] at hd
    obtain ⟨hr', hst⟩ := ih hd.2
    refine ⟨hl.sortedNode hr' ?_, ?_⟩
    · rw [hst, Finset.disjoint_union_right]
      exact ⟨hlr.mono_right Finset.sdiff_subset, hd.1⟩
    · rw [subtreeTerminals_sortedNode, hst, subtreeTerminals, Finset.union_sdiff_distrib, out hUr hlr.symm,
        Finset.union_assoc]

/-- **The addresses with `S` in the place of `U`.** -/
theorem ptrs_swap {D : List Ptr} (hD : t.ptrs.Perm (U.ptrs ++ D)) : (t.replaceAt U.ptr S).ptrs.Perm (S.ptrs ++ D) := by
  suffices h : ∀ a, (t.replaceAt U.ptr S).ptrs.count a + U.ptrs.count a = t.ptrs.count a + S.ptrs.count a by
    refine List.perm_iff_count.2 fun a => ?_
    have h₁ := h a
    have h₂ := List.perm_iff_count.1 hD a
    rw [List.count_append] at h₂ ⊢
    omega
  intro a
  refine replaceAt_induction (motive := fun t t' => t'.ptrs.count a + U.ptrs.count a = t.ptrs.count a + S.ptrs.count a)
    (Nat.add_comm _ _) ?_ ?_ hv hn hU
  · intro q l r _ _ _ ih
    rw [(ptrs_sortedNode q _ r).count_eq]
    simp only [ptrs, List.count_cons, List.count_append]
    omega
  · intro q l r _ _ _ ih
    rw [(ptrs_sortedNode q l _).count_eq]
    simp only [ptrs, List.count_cons, List.count_append]
    omega

/-- **The terminals with `S` in the place of `U`.** -/
theorem leaf_mem_swap {q : Ptr} {x : Label} {m : Finset Label} : leaf q x m ∈ (t.replaceAt U.ptr S).subtrees ↔
    leaf q x m ∈ S.subtrees ∨ leaf q x m ∈ t.subtrees ∧ q ∉ U.ptrs := by
  refine replaceAt_induction (motive := fun t t' => leaf q x m ∈ t'.subtrees ↔
    leaf q x m ∈ S.subtrees ∨ leaf q x m ∈ t.subtrees ∧ q ∉ U.ptrs) ?_ ?_ ?_ hv hn hU
  · exact ⟨Or.inl, fun h => h.resolve_right fun h => h.2 (ptr_mem_ptrs h.1)⟩
  · intro p l r _ hn hUl ih
    rw [leaf_mem_sortedNode, ih, mem_subtrees_node]
    have hout : leaf q x m ∈ r.subtrees → q ∉ U.ptrs := fun h hq =>
      ((notMem_other hn).2 _ h).2 (ptrs_subset_of_mem_subtrees hUl hq)
    have hno : leaf q x m ≠ node p l r := by simp
    tauto
  · intro p l r _ hn hUr ih
    rw [leaf_mem_sortedNode, ih, mem_subtrees_node]
    have hout : leaf q x m ∈ l.subtrees → q ∉ U.ptrs := fun h hq =>
      ((notMem_other hn).1 _ h).2 (ptrs_subset_of_mem_subtrees hUr hq)
    have hno : leaf q x m ≠ node p l r := by simp
    tauto

/-- `S` is in the tree. -/
theorem mem_subtrees_replaceAt : S ∈ (t.replaceAt U.ptr S).subtrees :=
  replaceAt_induction (motive := fun _ t' => S ∈ t'.subtrees) (mem_subtrees_self S)
    (fun _ _ _ _ _ _ ih => mem_subtrees_sortedNode.2 (Or.inr (Or.inl ih)))
    (fun _ _ _ _ _ _ ih => mem_subtrees_sortedNode.2 (Or.inr (Or.inr ih))) hv hn hU

/-- A subtree in its own place. -/
theorem replaceAt_ptr_self : t.replaceAt U.ptr U = t :=
  replaceAt_induction (motive := fun t t' => t' = t) rfl (fun _ _ _ hv _ _ ih => ih.symm ▸ hv.sortedNode_eq)
    (fun _ _ _ hv _ _ ih => ih.symm ▸ hv.sortedNode_eq) hv hn hU

end Swap

/-- Sorted children stay, whichever way they are given. -/
theorem Valid.sortedNode_swap {q : Ptr} {l r : Tree} (h : (node q l r).Valid) : Tree.sortedNode q r l = node q l r :=
  if_pos h.2.2.2

/-- **Down to the subtree and back.** -/
theorem replaceAt_replaceAt {U L t : Tree} (hL : L ∈ U.subtrees) (hv : t.Valid) (hn : t.ptrs.Nodup)
    (hU : U ∈ t.subtrees) :
    (t.replaceAt U.ptr L).replaceAt L.ptr U = t := by
  refine replaceAt_induction (motive := fun t t' => t'.replaceAt L.ptr U = t) replaceAt_self ?_ ?_ hv hn hU
  · intro q l r hv hn hUl ih
    obtain ⟨hq, hr⟩ := (notMem_other hn).1 L (subtrees_trans hL hUl)
    have hr' := replaceAt_of_notMem (S := U) hv.2.1 hr
    unfold sortedNode
    split_ifs
    · rw [replaceAt, if_neg hq.symm, ih, hr', hv.sortedNode_swap]
    · rw [replaceAt, if_neg hq.symm, ih, hr', hv.sortedNode_eq]
  · intro q l r hv hn hUr ih
    obtain ⟨hq, hl⟩ := (notMem_other hn).2 L (subtrees_trans hL hUr)
    have hl' := replaceAt_of_notMem (S := U) hv.1 hl
    unfold sortedNode
    split_ifs
    · rw [replaceAt, if_neg hq.symm, ih, hl', hv.sortedNode_swap]
    · rw [replaceAt, if_neg hq.symm, ih, hl', hv.sortedNode_eq]

/-- **To collapse a subtree is to replace it by its terminal.** -/
theorem collapse_eq_replaceAt {U t : Tree} (hUn : U.isTerminal = false) (hv : t.Valid) (hn : t.ptrs.Nodup)
    (hU : U ∈ t.subtrees) : t.collapse U.ptr = t.replaceAt U.ptr U.collapsed := by
  refine replaceAt_induction (motive := fun t t' => t.collapse U.ptr = t') ?_ ?_ ?_ hv hn hU
  · cases U with
    | leaf => cases hUn
    | node p l r => exact if_pos rfl
  · intro q l r hv hn hUl ih
    obtain ⟨hq, hr⟩ := (notMem_other hn).1 U hUl
    rw [collapse, if_neg hq.symm, ih, collapse_of_notMem hr]
    refine (if_neg ?_).symm
    rw [← ih, least_collapse]
    exact not_lt.2 hv.2.2.2.le
  · intro q l r hv hn hUr ih
    obtain ⟨hq, hl⟩ := (notMem_other hn).2 U hUr
    rw [collapse, if_neg hq.symm, ih, collapse_of_notMem hl]
    refine (if_neg ?_).symm
    rw [← ih, least_collapse]
    exact not_lt.2 hv.2.2.2.le

section Stored

variable {width : ℕ} {h h' : Nodes} {U S t : Tree}

/-- **The memory with `S` in the place of `U`**: the words of the nodes above are corrected by
`d`, and their children are sorted. -/
structure Swapped (h h' : Nodes) (t U S : Tree) (d : List Bitset.Word) : Prop where
  above : ∀ q l r, node q l r ∈ t.subtrees → U ∈ l.subtrees ∨ U ∈ r.subtrees →
    h' q = Nodes.withSortedChildren h' (Nodes.withLabels (· ^^^ ·) d { h q with
      leftChild := rename U.ptr S.ptr (h q).leftChild
      rightChild := rename U.ptr S.ptr (h q).rightChild })
  beside : ∀ s ∈ t.subtrees, U ∉ s.subtrees → s ∉ U.subtrees →
    h' s.ptr = { h s.ptr with sibling := rename U.ptr S.ptr (h s.ptr).sibling }

/-- What is said of a tree holds of its subtrees. -/
theorem Swapped.of_mem {d : List Bitset.Word} {c : Tree} (hS : Swapped h h' t U S d) (hc : c ∈ t.subtrees) :
    Swapped h h' c U S d :=
  ⟨fun q l r hq => hS.above q l r (subtrees_trans hq hc), fun s hs => hS.beside s (subtrees_trans hs hc)⟩

/-- The other subtree of a node above stays, up to its sibling. -/
theorem Stored.of_swapped {d : List Bitset.Word} {c o : Tree} {parent sibling : Option Ptr} (hS : Swapped h h' o U S d)
    (ho : o.Stored width h parent sibling) (hn : o.ptrs.Nodup) (hU : U ∈ c.subtrees) (hdis : ∀ x ∈ c.ptrs, x ∉ o.ptrs) :
    o.Stored width h' parent (rename U.ptr S.ptr sibling) := by
  have hUo : U.ptr ∉ o.ptrs := hdis _ (ptr_mem_ptrs hU)
  have hbeside : ∀ s ∈ o.subtrees, h' s.ptr = { h s.ptr with sibling := rename U.ptr S.ptr (h s.ptr).sibling } :=
    fun s hs => hS.beside s hs (fun hUs => hUo (ptr_mem_ptrs (subtrees_trans hUs hs)))
      fun hsU => hdis _ (ptr_mem_ptrs (subtrees_trans hsU hU)) (ptr_mem_ptrs hs)
  refine ho.move hn ?_ fun x hx hxo => ?_
  · rw [hbeside o (mem_subtrees_self o), ho.root]
    rfl
  · rw [← map_ptr_subtrees] at hx
    obtain ⟨s, hs, rfl⟩ := List.mem_map.1 hx
    have hsib : rename U.ptr S.ptr (h s.ptr).sibling = (h s.ptr).sibling := if_neg fun he => by
      rcases ho.sibling_of_sibling (ptr_mem_ptrs hs) he with ⟨h, -⟩ | ⟨h, -⟩
      · exact hxo h
      · exact hUo h
    rw [hbeside s hs, hsib]

/-- The words of a node above. -/
theorem symmDiff_words {A B C : Finset Label} (hBA : B ⊆ A) (hd : Disjoint (A \ B) C) :
    symmDiff A (symmDiff B C) = (A \ B) ∪ C := by
  rw [← symmDiff_assoc, symmDiff_of_ge hBA]
  exact hd.symmDiff_eq_sup

/-- **What the memory holds after the exchange.** -/
theorem Stored.swap (hv : t.Valid) (hn : t.ptrs.Nodup) (hU : U ∈ t.subtrees) (hSv : S.Valid)
    (hd : Disjoint (t.subtreeTerminals \ U.subtreeTerminals) S.subtreeTerminals)
    (hw : Within width ((t.subtreeTerminals \ U.subtreeTerminals) ∪ S.subtreeTerminals)) {parent sibling : Option Ptr}
    (ht : t.Stored width h parent sibling) (hS : S.Stored width h' (h U.ptr).parent (h U.ptr).sibling)
    (hX : Swapped h h' t U S (encode width (symmDiff U.subtreeTerminals S.subtreeTerminals))) :
    (t.replaceAt U.ptr S).Stored width h' parent sibling := by
  induction t generalizing parent sibling with
  | leaf q x m =>
      obtain rfl := List.mem_singleton.1 hU
      rw [replaceAt_self]
      rwa [ht.root] at hS
  | node q l r ihl ihr =>
      obtain ⟨hl, hr⟩ := notMem_other hn
      obtain ⟨-, hst⟩ := swap_spec hv hn hU hSv hd
      have hsub := subtreeTerminals_subset_of_mem_subtrees hU
      have hn' := hn
      rw [ptrs, List.nodup_cons, List.nodup_append] at hn'
      -- the node above, once its children are known
      have join : U ∈ l.subtrees ∨ U ∈ r.subtrees → q ≠ U.ptr →
          (l.replaceAt U.ptr S).Stored width h' (some q) (some (r.replaceAt U.ptr S).ptr) →
          (r.replaceAt U.ptr S).Stored width h' (some q) (some (l.replaceAt U.ptr S).ptr) →
          (l.replaceAt U.ptr S).Valid → (r.replaceAt U.ptr S).Valid →
          Disjoint (l.replaceAt U.ptr S).subtreeTerminals (r.replaceAt U.ptr S).subtreeTerminals →
          ((node q l r).replaceAt U.ptr S).Stored width h' parent sibling := by
        intro hlr hq hls hrs hlv hrv hdis
        rw [Tree.replaceAt, if_neg hq] at hst ⊢
        rw [subtreeTerminals_sortedNode] at hst
        refine Stored.sortedNode hls hrs hlv hrv hdis (hst ▸ hw) ?_
        have habove := hX.above q l r (mem_subtrees_self _) hlr
        rw [show h q = _ from ht.1] at habove
        refine habove.trans ?_
        rw [hst, ← symmDiff_words hsub hd, ← Bitset.xor_encode width (node q l r).subtreeTerminals, some_ptr_replaceAt,
          some_ptr_replaceAt]
        rfl
      rcases mem_subtrees_node.1 hU with rfl | hUl | hUr
      · rw [replaceAt_self]
        rwa [show h (node q l r).ptr = _ from ht.1] at hS
      · have hlm : l ∈ (node q l r).subtrees := mem_subtrees_node.2 (Or.inr (Or.inl (mem_subtrees_self l)))
        have hrm : r ∈ (node q l r).subtrees := mem_subtrees_node.2 (Or.inr (Or.inr (mem_subtrees_self r)))
        have hsame := replaceAt_of_notMem (S := S) hv.2.1 (hl U hUl).2
        have hout : r.subtreeTerminals \ U.subtreeTerminals = r.subtreeTerminals := Finset.sdiff_eq_self_of_disjoint
          (hv.2.2.1.symm.mono_right (subtreeTerminals_subset_of_mem_subtrees hUl))
        rw [subtreeTerminals, Finset.union_sdiff_distrib, hout] at hd hw
        rw [Finset.disjoint_union_left] at hd
        obtain ⟨hlv, hlst⟩ := swap_spec hv.1 hn'.2.1 hUl hSv hd.1
        refine join (Or.inl hUl) (hl U hUl).1.symm ?_ ?_ hlv ?_ ?_
        · rw [hsame]
          refine ihl hv.1 hn'.2.1 hUl hd.1 (hw.mono ?_) ht.2.1 (hX.of_mem hlm)
          exact Finset.union_subset_union_left Finset.subset_union_left
        · rw [hsame, some_ptr_replaceAt]
          exact Stored.of_swapped (hX.of_mem hrm) ht.2.2 hn'.2.2.1 hUl fun x hx hx' => hn'.2.2.2 x hx x hx' rfl
        · rw [hsame]
          exact hv.2.1
        · rw [hsame, hlst, Finset.disjoint_union_left]
          exact ⟨hv.2.2.1.mono_left Finset.sdiff_subset, hd.2.symm⟩
      · have hlm : l ∈ (node q l r).subtrees := mem_subtrees_node.2 (Or.inr (Or.inl (mem_subtrees_self l)))
        have hrm : r ∈ (node q l r).subtrees := mem_subtrees_node.2 (Or.inr (Or.inr (mem_subtrees_self r)))
        have hsame := replaceAt_of_notMem (S := S) hv.1 (hr U hUr).2
        have hout : l.subtreeTerminals \ U.subtreeTerminals = l.subtreeTerminals := Finset.sdiff_eq_self_of_disjoint
          (hv.2.2.1.mono_right (subtreeTerminals_subset_of_mem_subtrees hUr))
        rw [subtreeTerminals, Finset.union_sdiff_distrib, hout] at hd hw
        rw [Finset.disjoint_union_left] at hd
        obtain ⟨hrv, hrst⟩ := swap_spec hv.2.1 hn'.2.2.1 hUr hSv hd.2
        refine join (Or.inr hUr) (hr U hUr).1.symm ?_ ?_ ?_ hrv ?_
        · rw [hsame, some_ptr_replaceAt]
          exact Stored.of_swapped (hX.of_mem hlm) ht.2.1 hn'.2.1 hUr fun x hx hx' => hn'.2.2.2 x hx' x hx rfl
        · rw [hsame]
          refine ihr hv.2.1 hn'.2.2.1 hUr hd.2 (hw.mono ?_) ht.2.2 (hX.of_mem hrm)
          exact Finset.union_subset_union_left Finset.subset_union_right
        · rw [hsame]
          exact hv.1
        · rw [hsame, hrst, Finset.disjoint_union_right]
          exact ⟨hv.2.2.1.mono_right Finset.sdiff_subset, hd.1⟩

/-- The tree says what its nodes hold. -/
theorem Stored.nodes_eq {parent sibling : Option Ptr} (ht : t.Stored width h parent sibling)
    (ht' : t.Stored width h' parent sibling) : ∀ x ∈ t.ptrs, h' x = h x := by
  induction t generalizing parent sibling with
  | leaf p x m =>
      intro y hy
      rw [List.mem_singleton.1 hy]
      exact Eq.trans ht' (Eq.symm ht)
  | node p l r ihl ihr =>
      intro y hy
      rw [ptrs, List.mem_cons, List.mem_append] at hy
      rcases hy with rfl | hy | hy
      · exact ht'.1.trans ht.1.symm
      · exact ihl ht.2.1 ht'.2.1 y hy
      · exact ihr ht.2.2 ht'.2.2 y hy

end Stored

end Tree

namespace Forest

section Swap

variable {width : ℕ} {F : Forest} {U S : Tree}

/-- The addresses of a forest are those of a subtree and others. -/
theorem exists_ptrs_perm (hU : U ∈ F.subtrees) : ∃ D, F.ptrs.Perm (U.ptrs ++ D) := by
  obtain ⟨t, ht, hUt⟩ := mem_subtrees.1 hU
  obtain ⟨A, B, rfl⟩ := List.append_of_mem ht
  obtain ⟨D, hD⟩ := Tree.exists_ptrs_perm hUt
  refine ⟨D ++ Forest.ptrs (A ++ B), List.perm_iff_count.2 fun a => ?_⟩
  have := List.perm_iff_count.1 hD a
  simp only [ptrs, List.flatMap_append, List.flatMap_cons, List.count_append] at this ⊢
  omega

variable (hF : F.Valid) (hU : U ∈ F.subtrees)
include hF hU

/-- **The addresses with `S` in the place of `U`.** -/
theorem ptrs_swap {D : List Ptr} (hD : F.ptrs.Perm (U.ptrs ++ D)) : (F.replaceAt U.ptr S).ptrs.Perm (S.ptrs ++ D) := by
  obtain ⟨A, t, B, rfl, hUt, hperm, -⟩ := exists_split hF hU S
  obtain ⟨hnt, -⟩ := notMem_of_split hF.nodup
  obtain ⟨E, hE⟩ := Tree.exists_ptrs_perm hUt
  have hS := Tree.ptrs_swap (S := S) (hF.tree t (by simp)) hnt hUt hE
  refine (hperm.flatMap_right _).trans (List.perm_iff_count.2 fun a => ?_)
  have h₁ := List.perm_iff_count.1 hE a
  have h₂ := List.perm_iff_count.1 hS a
  have h₃ := List.perm_iff_count.1 hD a
  simp only [ptrs, List.flatMap_cons, List.flatMap_append, List.count_append] at h₁ h₂ h₃ ⊢
  omega

/-- **The terminals with `S` in the place of `U`.** -/
theorem leaf_mem_swap {q : Ptr} {x : Label} {m : Finset Label} : Tree.leaf q x m ∈ (F.replaceAt U.ptr S).subtrees ↔
    Tree.leaf q x m ∈ S.subtrees ∨ Tree.leaf q x m ∈ F.subtrees ∧ q ∉ U.ptrs := by
  obtain ⟨A, t, B, rfl, hUt, hperm, -⟩ := exists_split hF hU S
  obtain ⟨hnt, hout⟩ := notMem_of_split hF.nodup
  have hother : Tree.leaf q x m ∈ (A ++ B).flatMap Tree.subtrees → q ∉ U.ptrs := fun h hq => by
    obtain ⟨u, hu, hqu⟩ := List.mem_flatMap.1 h
    exact hout u hu q (Tree.ptr_mem_ptrs hqu) (Tree.ptrs_subset_of_mem_subtrees hUt hq)
  rw [subtrees, (hperm.flatMap_right _).mem_iff, List.flatMap_cons, List.mem_append,
    Tree.leaf_mem_swap (hF.tree t (by simp)) hnt hUt, subtrees, (List.perm_middle.flatMap_right _).mem_iff,
    List.flatMap_cons, List.mem_append]
  tauto

/-- **The forest stays valid**, when `S` brings no label and no address that is elsewhere in it. -/
theorem Valid.swap (hw : ∀ t ∈ F, Within width t.subtreeTerminals) (hS : S.Valid)
    (hSw : Within width S.subtreeTerminals)
    (hd : ∀ t ∈ F, Disjoint (t.subtreeTerminals \ U.subtreeTerminals) S.subtreeTerminals) (hSn : S.ptrs.Nodup)
    (hSF : ∀ x ∈ S.ptrs, x ∈ F.ptrs → x ∈ U.ptrs) :
    (F.replaceAt U.ptr S).Valid ∧ ∀ u ∈ F.replaceAt U.ptr S, Within width u.subtreeTerminals := by
  obtain ⟨A, t, B, rfl, hUt, hperm, heq⟩ := exists_split hF hU S
  obtain ⟨hnt, -⟩ := notMem_of_split hF.nodup
  have ht : t ∈ A ++ t :: B := by simp
  have hsub : ∀ u ∈ A ++ B, u ∈ A ++ t :: B := fun u hu => by
    rcases List.mem_append.1 hu with hu | hu
    · simp [hu]
    · simp [hu]
  obtain ⟨htv, hterm⟩ := Tree.swap_spec (hF.tree t ht) hnt hUt hS (hd t ht)
  have hAB : (A ++ B).Sublist (A ++ t :: B) := (List.sublist_cons_self t B).append_left A
  have hdis : ∀ u ∈ A ++ B, Disjoint (t.replaceAt U.ptr S).subtreeTerminals u.subtreeTerminals := fun u hu => by
    have htu := (List.pairwise_cons.1 (hF.disjoint.perm List.perm_middle fun h => Disjoint.symm h)).1 u hu
    have hUu : u.subtreeTerminals \ U.subtreeTerminals = u.subtreeTerminals := Finset.sdiff_eq_self_of_disjoint
      (htu.symm.mono_right (Tree.subtreeTerminals_subset_of_mem_subtrees hUt))
    rw [hterm, Finset.disjoint_union_left]
    exact ⟨htu.mono_left Finset.sdiff_subset, hUu ▸ (hd u (hsub u hu)).symm⟩
  refine ⟨⟨fun u hu => ?_, ?_, ?_, ?_⟩, fun u hu => ?_⟩
  · rcases List.mem_cons.1 (hperm.subset hu) with rfl | hu
    · exact htv
    · exact hF.tree u (hsub u hu)
  · exact (hperm.pairwise_iff fun h => Disjoint.symm h).2 (List.pairwise_cons.2 ⟨hdis, hF.disjoint.sublist hAB⟩)
  · rw [heq]
    refine sorted_insertRoot (hF.sorted.sublist hAB) fun u hu he => ?_
    exact Finset.disjoint_left.1 (hdis u hu) (he ▸ Tree.least_mem _) (Tree.least_mem u)
  · obtain ⟨D, hD⟩ := exists_ptrs_perm hU
    have hn := hD.nodup_iff.1 hF.nodup
    rw [List.nodup_append] at hn
    refine (ptrs_swap hF hU hD).nodup_iff.2 (List.nodup_append.2 ⟨hSn, hn.2.1, ?_⟩)
    rintro x hx y hy rfl
    exact hn.2.2 x (hSF x hx (hD.symm.subset (List.mem_append_right _ hy))) x hy rfl
  · rcases List.mem_cons.1 (hperm.subset hu) with rfl | hu
    · rw [hterm]
      intro x hx
      rcases Finset.mem_union.1 hx with hx | hx
      · exact hw t ht x (Finset.sdiff_subset hx)
      · exact hSw x hx
    · exact hw u (hsub u hu)

/-- **To collapse a subtree is to replace it by its terminal.** -/
theorem collapse_eq_replaceAt (hUn : U.isTerminal = false) : F.collapse U.ptr = F.replaceAt U.ptr U.collapsed := by
  obtain ⟨A, t, B, rfl, hUt, hperm, heq⟩ := exists_split hF hU U.collapsed
  obtain ⟨hn, hout⟩ := notMem_of_split hF.nodup
  have htree := Tree.collapse_eq_replaceAt hUn (hF.tree t (by simp)) hn hUt
  have hother : ∀ u ∈ A ++ B, u.collapse U.ptr = u := fun u hu =>
    Tree.collapse_of_notMem fun hmem => hout u hu _ hmem (Tree.ptr_mem_ptrs hUt)
  have hcol : (Forest.collapse U.ptr (A ++ t :: B)).Perm (t.replaceAt U.ptr U.collapsed :: (A ++ B)) := by
    refine (List.perm_middle.map _).trans ?_
    rw [List.map_cons, htree, List.map_congr_left hother, List.map_id']
  have hsorted := (Valid.collapse hF U.ptr).sorted
  refine (hcol.trans hperm.symm).eq_of_pairwise (fun _ _ _ _ hab hba => absurd hab (lt_asymm hba)) hsorted ?_
  rw [heq]
  refine sorted_insertRoot (hF.sorted.sublist ((List.sublist_cons_self t B).append_left A)) fun u hu he => ?_
  have hd := (List.pairwise_cons.1 (hF.disjoint.perm List.perm_middle fun h => Disjoint.symm h)).1 u hu
  rw [← htree, Tree.least_collapse] at he
  exact Finset.disjoint_left.1 hd (he ▸ Tree.least_mem t) (Tree.least_mem u)

end Swap

/-- **A memory is determined by its forest** and by the nodes off it. -/
theorem WellFormed.eq_of_frame {width : ℕ} {F : Forest} {s s' : Store} (hF : F.WellFormed width s) (hI : F.Indexed s)
    (hF' : F.WellFormed width s') (hI' : F.Indexed s') (hoff : ∀ x ∉ F.ptrs, s.nodes x = s'.nodes x) : s = s' := by
  refine Store.ext (funext fun x => ?_) ?_ (funext fun x => Option.ext fun p => ?_)
    (funext fun p => Option.ext fun x => ?_)
  · by_cases hx : x ∈ F.ptrs
    · obtain ⟨t, ht, hxt⟩ := List.mem_flatMap.1 hx
      exact (hF'.stored.trees t ht).nodes_eq (hF.stored.trees t ht) x hxt
    · exact hoff x hx
  · rw [hF.stored.roots, hF'.stored.roots]
  · exact (hI.labelToTerminal p x).trans (hI'.labelToTerminal p x).symm
  · exact (hI.terminalToLabel p x).trans (hI'.terminalToLabel p x).symm

/-- **Down to the subtree and back.** -/
theorem replaceAt_replaceAt {width : ℕ} {F : Forest} {U L : Tree} (hF : F.Valid)
    (hw : ∀ t ∈ F, Within width t.subtreeTerminals) (hU : U ∈ F.subtrees) (hL : L ∈ U.subtrees) :
    (F.replaceAt U.ptr L).replaceAt L.ptr U = F := by
  have hG := (Valid.replaceAt hF hU hL hw).1
  obtain ⟨A, t, B, rfl, hUt, hperm, -⟩ := exists_split hF hU L
  obtain ⟨hnt, -⟩ := notMem_of_split hF.nodup
  have htv := hF.tree t (by simp)
  have hback := Tree.replaceAt_replaceAt hL htv hnt hUt
  have hLt : L.ptr ∈ (t.replaceAt U.ptr L).ptrs :=
    ((Tree.ptrs_replaceAt hL htv hnt hUt).2 _).2
      ⟨Tree.ptr_mem_ptrs (Tree.subtrees_trans hL hUt), fun _ => Tree.ptr_mem_ptrs (Tree.mem_subtrees_self L)⟩
  -- the tree with the subtree, and the others
  obtain ⟨A', B', hsplit⟩ := List.append_of_mem (hperm.symm.subset (List.mem_cons_self ..))
  have hrest : (A' ++ B').Perm (A ++ B) :=
    (List.perm_cons _).1 ((List.perm_middle.symm.trans (List.Perm.of_eq hsplit.symm)).trans hperm)
  rw [hsplit, replaceAt_eq (hsplit ▸ hG.nodup) hLt, hback]
  have hall : (insertRoot t (A' ++ B')).Perm (A ++ t :: B) :=
    (perm_insertRoot _ _).trans ((hrest.cons t).trans List.perm_middle.symm)
  refine hall.eq_of_pairwise (fun _ _ _ _ hab hba => absurd hab (lt_asymm hba)) ?_ hF.sorted
  refine sorted_insertRoot ?_ fun u hu he => ?_
  · have := hG.sorted
    rw [hsplit] at this
    exact this.sublist ((List.sublist_cons_self _ B').append_left A')
  · have := (List.pairwise_cons.1 (hF.disjoint.perm List.perm_middle fun h => Disjoint.symm h)).1 u (hrest.subset hu)
    exact Finset.disjoint_left.1 this (he ▸ Tree.least_mem t) (Tree.least_mem u)

end Forest

end Maf
