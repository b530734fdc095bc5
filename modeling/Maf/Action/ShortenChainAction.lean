/-
# Shortening a chain

`src/Solver/Action/ShortenChainAction.cpp`.  A chain is a list of terminals each of which
is the sibling of the parent of the one before.  `doAction` takes all its terminals above
`lower` out of a forest: the parent of `lower` takes the place of the parent of `upper`,
the words above are corrected, the children there and the roots are sorted again, and the
labels of the terminals leave the two maps.

In the forest the subtree at the parent of `upper` is replaced by the one at the parent of
`lower` (`Forest.replaceAt`).  The action succeeds on every chain (`Forest.exists_shorten`) and
leaves the links of all other chains as they were (`Shortened.link`).

Children and roots are compared with `hasSmallestTerminal`, in which `__builtin_ctzll(0)` is read as `64`
(`Bitset.ctz`).
-/

import Maf.Action.CollapseSubtreeAction
import Maf.Scan

namespace Maf

open Bitset (encode Within)
open Graph

namespace Graph

/-- `ShortenChainAction`, as `doAction` leaves it. -/
structure ShortenChainAction where
  lower : Label
  upper : Label
  upperParent : Ptr
  lowerUncle : Option Ptr
  reducedLabelToTerminal : List (Label × Ptr)
  reducedTerminalToLabel : List (Ptr × Label)
  bitmaskReduceSubtreeTerminals : List Bitset.Word

namespace ShortenChainAction

/-- The writes of `doAction` that put `lowerParent` below `chainParent`. -/
def relink (h : Nodes) (lowerParent chainParent chainSibling : Ptr) : Nodes :=
  let h₁ := (h.setSibling lowerParent (some chainSibling)).setParent lowerParent (some chainParent)
  let h₂ := h₁.setSibling chainSibling (some lowerParent)
  if (h₂ chainParent).leftChild = some chainSibling then h₂.setRightChild chainParent (some lowerParent)
  else h₂.setLeftChild chainParent (some lowerParent)

/-- `doAction`; `none` where a null pointer or an iterator at the end is read, or an exception is thrown. -/
def doAction (fuel : ℕ) (lower upper : Label) (s : Store) : Option (ShortenChainAction × Store) := do
  let upperNode ← s.labelToTerminal upper
  let lowerNode ← s.labelToTerminal lower
  let upperParent ← (s.nodes upperNode).parent
  let chainParent ← (s.nodes upperParent).parent
  let chainSibling ← (s.nodes upperParent).sibling
  let lowerParent ← (s.nodes lowerNode).parent
  let h := relink s.nodes lowerParent chainParent chainSibling
  let upperParent' ← (h upperNode).parent
  let bitmask := List.zipWith (· ^^^ ·) (h lowerParent).subtreeTerminals (h upperParent').subtreeTerminals
  let (_, h) ← h.propagate (· ^^^ ·) bitmask false fuel chainParent (some chainParent)
  let root ← s.roots.find? fun r => Bitset.hasSubset (h chainParent).subtreeTerminals (h r).subtreeTerminals
  let roots := s.roots.erase root
  let chainLabels := Bitset.elements bitmask
  let labels ← chainLabels.mapM fun label => (s.labelToTerminal label).map fun n => (label, n)
  let terminals ← labels.mapM fun entry => (s.terminalToLabel entry.2).map fun label => (entry.2, label)
  some (⟨lower, upper, upperParent, (s.nodes lowerParent).sibling, labels, terminals, bitmask⟩,
    { nodes := h
      roots := roots.insertIdx (lowerBound h roots 0 root) root
      labelToTerminal := fun label => if label ∈ chainLabels then none else s.labelToTerminal label
      terminalToLabel := fun n => (s.terminalToLabel n).filter fun label => label ∉ chainLabels })

/-- What `relink` writes. -/
theorem relink_apply {h : Nodes} {l g c : Ptr} (hlc : l ≠ c) (hgl : g ≠ l) (x : Ptr) :
    relink h l g c x =
      { parent := if x = l then some g else (h x).parent
        sibling := if x = c then some l else if x = l then some c else (h x).sibling
        leftChild := if x = g ∧ (h g).leftChild ≠ some c then some l else (h x).leftChild
        rightChild := if x = g ∧ (h g).leftChild = some c then some l else (h x).rightChild
        subtreeTerminals := (h x).subtreeTerminals } := by
  have hleft : ((((h.setSibling l (some c)).setParent l (some g)).setSibling c (some l)) g).leftChild =
      (h g).leftChild := by
    simp only [Nodes.setSibling, Nodes.setParent, Nodes.modify_apply]
    split_ifs <;> rfl
  unfold relink
  by_cases hg : (h g).leftChild = some c
  · rw [if_pos (hleft.trans hg)]
    simp only [Nodes.setSibling, Nodes.setParent, Nodes.setRightChild, Nodes.modify_apply, hg]
    by_cases hxl : x = l <;> by_cases hxc : x = c <;> by_cases hxg : x = g <;> simp_all
  · rw [if_neg (hleft ▸ hg)]
    simp only [Nodes.setSibling, Nodes.setParent, Nodes.setLeftChild, Nodes.modify_apply, hg]
    by_cases hxl : x = l <;> by_cases hxc : x = c <;> by_cases hxg : x = g <;> simp_all

end ShortenChainAction
end Graph

namespace Tree

/-- The tree with `S` in place of the subtree at the address `p`; the children above it are
sorted again. -/
def replaceAt (p : Ptr) : Tree → Tree → Tree
  | leaf q x m, S => if q = p then S else leaf q x m
  | node q l r, S => if q = p then S else sortedNode q (l.replaceAt p S) (r.replaceAt p S)

/-- The children of a valid tree are sorted already. -/
theorem Valid.sortedNode_eq {q : Ptr} {l r : Tree} (h : (node q l r).Valid) : Tree.sortedNode q l r = node q l r := by
  unfold Tree.sortedNode
  rw [if_neg (not_lt.2 h.2.2.2.le)]

/-- The whole tree is replaced. -/
theorem replaceAt_self {S U : Tree} : U.replaceAt U.ptr S = S := by
  cases U with
  | leaf => exact if_pos rfl
  | node => exact if_pos rfl

/-- A valid tree without the address stays. -/
theorem replaceAt_of_notMem {p : Ptr} {S t : Tree} (ht : t.Valid) (hp : p ∉ t.ptrs) : t.replaceAt p S = t := by
  induction t with
  | leaf q x m => exact if_neg fun he : q = p => hp (by simp [he])
  | node q l r ihl ihr =>
      simp only [ptrs, List.mem_cons, List.mem_append, not_or] at hp
      rw [replaceAt, if_neg (Ne.symm hp.1), ihl ht.1 hp.2.1, ihr ht.2.1 hp.2.2, ht.sortedNode_eq]

/-- The address of the root changes with the subtree only. -/
theorem some_ptr_replaceAt (p : Ptr) (S t : Tree) : some (t.replaceAt p S).ptr = rename p S.ptr (some t.ptr) := by
  cases t with
  | leaf q x m =>
      unfold replaceAt
      split_ifs with h
      · rw [ptr_leaf, h, rename_self]
      · rw [ptr_leaf, rename_of_ne h]
  | node q l r =>
      unfold replaceAt
      split_ifs with h
      · rw [ptr_node, h, rename_self]
      · rw [ptr_node, rename_of_ne h, ptr_sortedNode]

section ReplaceAt

variable {U S t : Tree}

/-- The other child does not hold the subtree. -/
theorem notMem_other {q : Ptr} {l r : Tree} (hn : (node q l r).ptrs.Nodup) :
    (∀ u ∈ l.subtrees, u.ptr ≠ q ∧ u.ptr ∉ r.ptrs) ∧ ∀ u ∈ r.subtrees, u.ptr ≠ q ∧ u.ptr ∉ l.ptrs := by
  rw [ptrs, List.nodup_cons, List.mem_append, not_or, List.nodup_append] at hn
  refine ⟨fun u hu => ⟨fun he => hn.1.1 (he ▸ ptr_mem_ptrs hu), fun hr => hn.2.2.2 _ (ptr_mem_ptrs hu) _ hr rfl⟩,
    fun u hu => ⟨fun he => hn.1.2 (he ▸ ptr_mem_ptrs hu), fun hl => hn.2.2.2 _ hl _ (ptr_mem_ptrs hu) rfl⟩⟩

/-- **Induction along the way to the subtree that is replaced.** -/
theorem replaceAt_induction {motive : Tree → Tree → Prop} (here : motive U S)
    (left : ∀ q l r, (node q l r).Valid → (node q l r).ptrs.Nodup → U ∈ l.subtrees → motive l (l.replaceAt U.ptr S) →
      motive (node q l r) (sortedNode q (l.replaceAt U.ptr S) r))
    (right : ∀ q l r, (node q l r).Valid → (node q l r).ptrs.Nodup → U ∈ r.subtrees → motive r (r.replaceAt U.ptr S) →
      motive (node q l r) (sortedNode q l (r.replaceAt U.ptr S)))
    (hv : t.Valid) (hn : t.ptrs.Nodup) (hU : U ∈ t.subtrees) : motive t (t.replaceAt U.ptr S) := by
  induction t with
  | leaf q x m =>
      obtain rfl := List.mem_singleton.1 hU
      rwa [replaceAt_self]
  | node q l r ihl ihr =>
      obtain ⟨hl, hr⟩ := notMem_other hn
      have hn' := hn
      rw [ptrs, List.nodup_cons, List.nodup_append] at hn'
      rcases mem_subtrees_node.1 hU with rfl | hU | hU
      · rwa [replaceAt_self]
      · have h := left q l r hv hn hU (ihl hv.1 hn'.2.1 hU)
        rwa [replaceAt, if_neg (hl U hU).1.symm, replaceAt_of_notMem hv.2.1 (hl U hU).2]
      · have h := right q l r hv hn hU (ihr hv.2.1 hn'.2.2.1 hU)
        rwa [replaceAt, if_neg (hr U hU).1.symm, replaceAt_of_notMem hv.1 (hr U hU).2]

/-- **The labels after the replacement.** -/
theorem replaceAt_spec (hS : S ∈ U.subtrees) (hv : t.Valid) (hn : t.ptrs.Nodup) (hU : U ∈ t.subtrees) :
    (t.replaceAt U.ptr S).Valid ∧ (t.replaceAt U.ptr S).subtreeTerminals =
      t.subtreeTerminals \ (U.subtreeTerminals \ S.subtreeTerminals) := by
  have hUv := hv.of_mem_subtrees hU
  have out : ∀ {c o : Tree}, U ∈ c.subtrees → Disjoint c.subtreeTerminals o.subtreeTerminals →
      o.subtreeTerminals \ (U.subtreeTerminals \ S.subtreeTerminals) = o.subtreeTerminals := fun hc hd =>
    Finset.sdiff_eq_self_of_disjoint
      (hd.symm.mono_right (Finset.sdiff_subset.trans (subtreeTerminals_subset_of_mem_subtrees hc)))
  refine replaceAt_induction (motive := fun t t' => t'.Valid ∧ t'.subtreeTerminals =
    t.subtreeTerminals \ (U.subtreeTerminals \ S.subtreeTerminals)) ?_ ?_ ?_ hv hn hU
  · exact ⟨hUv.of_mem_subtrees hS, (sdiff_sdiff_eq_self (subtreeTerminals_subset_of_mem_subtrees hS)).symm⟩
  · rintro q l r ⟨-, hr, hd, -⟩ - hUl ⟨hl', hst⟩
    refine ⟨hl'.sortedNode hr (hd.mono_left (hst ▸ Finset.sdiff_subset)), ?_⟩
    rw [subtreeTerminals_sortedNode, hst, subtreeTerminals, Finset.union_sdiff_distrib, out hUl hd]
  · rintro q l r ⟨hl, -, hd, -⟩ - hUr ⟨hr', hst⟩
    refine ⟨hl.sortedNode hr' (hd.mono_right (hst ▸ Finset.sdiff_subset)), ?_⟩
    rw [subtreeTerminals_sortedNode, hst, subtreeTerminals, Finset.union_sdiff_distrib, out hUr hd.symm]

/-- **The addresses after the replacement.** -/
theorem ptrs_replaceAt (hS : S ∈ U.subtrees) (hv : t.Valid) (hn : t.ptrs.Nodup) (hU : U ∈ t.subtrees) :
    (t.replaceAt U.ptr S).ptrs.Nodup ∧
      ∀ x, x ∈ (t.replaceAt U.ptr S).ptrs ↔ x ∈ t.ptrs ∧ (x ∈ U.ptrs → x ∈ S.ptrs) := by
  have hSU := ptrs_subset_of_mem_subtrees hS
  refine replaceAt_induction (motive := fun t t' => t'.ptrs.Nodup ∧
    ∀ x, x ∈ t'.ptrs ↔ x ∈ t.ptrs ∧ (x ∈ U.ptrs → x ∈ S.ptrs)) ?_ ?_ ?_ hv hn hU
  · exact ⟨nodup_of_mem_subtrees hS (nodup_of_mem_subtrees hU hn),
      fun x => ⟨fun h => ⟨hSU h, fun _ => h⟩, fun h => h.2 h.1⟩⟩
  · rintro q l r - hn hUl ⟨hn', hmem⟩
    have hUp := ptrs_subset_of_mem_subtrees hUl
    rw [ptrs, List.nodup_cons, List.mem_append, not_or, List.nodup_append] at hn
    have hperm := ptrs_sortedNode q (l.replaceAt U.ptr S) r
    refine ⟨hperm.nodup_iff.2 (List.nodup_cons.2 ⟨?_, List.nodup_append.2 ⟨hn', hn.2.2.1, ?_⟩⟩), fun x => ?_⟩
    · rw [List.mem_append, hmem, not_or]
      exact ⟨fun h => hn.1.1 h.1, hn.1.2⟩
    · exact fun a ha b hb => hn.2.2.2 a ((hmem a).1 ha).1 b hb
    · rw [hperm.mem_iff, List.mem_cons, List.mem_append, hmem, ptrs, List.mem_cons, List.mem_append]
      constructor
      · rintro (rfl | h | h)
        · exact ⟨Or.inl rfl, fun hx => absurd (hUp hx) hn.1.1⟩
        · exact ⟨Or.inr (Or.inl h.1), h.2⟩
        · exact ⟨Or.inr (Or.inr h), fun hx => absurd rfl (hn.2.2.2 x (hUp hx) x h)⟩
      · rintro ⟨h | h | h, hx⟩
        · exact Or.inl h
        · exact Or.inr (Or.inl ⟨h, hx⟩)
        · exact Or.inr (Or.inr h)
  · rintro q l r - hn hUr ⟨hn', hmem⟩
    have hUp := ptrs_subset_of_mem_subtrees hUr
    rw [ptrs, List.nodup_cons, List.mem_append, not_or, List.nodup_append] at hn
    have hperm := ptrs_sortedNode q l (r.replaceAt U.ptr S)
    refine ⟨hperm.nodup_iff.2 (List.nodup_cons.2 ⟨?_, List.nodup_append.2 ⟨hn.2.1, hn', ?_⟩⟩), fun x => ?_⟩
    · rw [List.mem_append, hmem, not_or]
      exact ⟨hn.1.1, fun h => hn.1.2 h.1⟩
    · exact fun a ha b hb => hn.2.2.2 a ha b ((hmem b).1 hb).1
    · rw [hperm.mem_iff, List.mem_cons, List.mem_append, hmem, ptrs, List.mem_cons, List.mem_append]
      constructor
      · rintro (rfl | h | h)
        · exact ⟨Or.inl rfl, fun hx => absurd (hUp hx) hn.1.2⟩
        · exact ⟨Or.inr (Or.inl h), fun hx => absurd rfl (hn.2.2.2 x h x (hUp hx))⟩
        · exact ⟨Or.inr (Or.inr h.1), h.2⟩
      · rintro ⟨h | h | h, hx⟩
        · exact Or.inl h
        · exact Or.inr (Or.inl h)
        · exact Or.inr (Or.inr ⟨h, hx⟩)

/-- **The terminals after the replacement.** -/
theorem leaf_mem_replaceAt (hS : S ∈ U.subtrees) (hv : t.Valid) (hn : t.ptrs.Nodup) (hU : U ∈ t.subtrees) {q : Ptr}
    {x : Label} {m : Finset Label} : leaf q x m ∈ (t.replaceAt U.ptr S).subtrees ↔
      leaf q x m ∈ t.subtrees ∧ (q ∈ U.ptrs → q ∈ S.ptrs) := by
  refine replaceAt_induction (motive := fun t t' => leaf q x m ∈ t'.subtrees ↔
    leaf q x m ∈ t.subtrees ∧ (q ∈ U.ptrs → q ∈ S.ptrs)) ?_ ?_ ?_ hv hn hU
  · constructor
    · exact fun h => ⟨subtrees_trans h hS, fun _ => ptr_mem_ptrs h⟩
    · rintro ⟨h, hq⟩
      have hqS := hq (ptr_mem_ptrs h)
      rw [← map_ptr_subtrees] at hqS
      obtain ⟨s, hs, hsq⟩ := List.mem_map.1 hqS
      rwa [← eq_of_ptr_eq (nodup_of_mem_subtrees hU hn) (subtrees_trans hs hS) h hsq]
  · intro p l r _ hn hUl ih
    have hdis := (notMem_other hn).2
    rw [leaf_mem_sortedNode, ih, mem_subtrees_node]
    constructor
    · rintro (h | h)
      · exact ⟨Or.inr (Or.inl h.1), h.2⟩
      · exact ⟨Or.inr (Or.inr h), fun hq => absurd (ptrs_subset_of_mem_subtrees hUl hq) (hdis _ h).2⟩
    · rintro ⟨h | h | h, hq⟩
      · cases h
      · exact Or.inl ⟨h, hq⟩
      · exact Or.inr h
  · intro p l r _ hn hUr ih
    have hdis := (notMem_other hn).1
    rw [leaf_mem_sortedNode, ih, mem_subtrees_node]
    constructor
    · rintro (h | h)
      · exact ⟨Or.inr (Or.inl h), fun hq => absurd (ptrs_subset_of_mem_subtrees hUr hq) (hdis _ h).2⟩
      · exact ⟨Or.inr (Or.inr h.1), h.2⟩
    · rintro ⟨h | h | h, hq⟩
      · cases h
      · exact Or.inl h
      · exact Or.inr ⟨h, hq⟩

variable {width : ℕ} {h h' : Nodes}

/-- **The memory after the writes of `doAction`**: `S` has taken the place of `U`, the words
of the nodes above no longer hold `d`, and their children are sorted. -/
structure Lifted (h h' : Nodes) (t U S : Tree) (d : List Bitset.Word) : Prop where
  lifted : h' S.ptr = { h S.ptr with parent := (h U.ptr).parent, sibling := (h U.ptr).sibling }
  below : ∀ x ∈ S.ptrs, x ≠ S.ptr → h' x = h x
  above : ∀ q l r, node q l r ∈ t.subtrees → U ∈ l.subtrees ∨ U ∈ r.subtrees →
    h' q = Nodes.withSortedChildren h' (Nodes.withLabels (· ^^^ ·) d { h q with
      leftChild := rename U.ptr S.ptr (h q).leftChild
      rightChild := rename U.ptr S.ptr (h q).rightChild })
  beside : ∀ s ∈ t.subtrees, U ∉ s.subtrees → s ∉ U.subtrees →
    h' s.ptr = { h s.ptr with sibling := rename U.ptr S.ptr (h s.ptr).sibling }

/-- What is said of a tree holds of its subtrees. -/
theorem Lifted.of_mem {d : List Bitset.Word} {c : Tree} (hL : Lifted h h' t U S d) (hc : c ∈ t.subtrees) :
    Lifted h h' c U S d :=
  ⟨hL.lifted, hL.below, fun q l r hq => hL.above q l r (subtrees_trans hq hc),
    fun s hs => hL.beside s (subtrees_trans hs hc)⟩

/-- The other subtree of a node above stays, up to its sibling. -/
theorem Stored.of_lifted {d : List Bitset.Word} {c o : Tree} {parent sibling : Option Ptr} (hL : Lifted h h' o U S d)
    (ho : o.Stored width h parent sibling) (hS : S ∈ U.subtrees) (hU : U ∈ c.subtrees)
    (hdis : ∀ x ∈ c.ptrs, x ∉ o.ptrs) : o.Stored width h' parent (rename U.ptr S.ptr sibling) := by
  have hUp : U.ptr ∉ o.ptrs := hdis _ (ptr_mem_ptrs hU)
  have hSp : S.ptr ∉ o.ptrs := hdis _ (ptr_mem_ptrs (subtrees_trans hS hU))
  refine Stored.of_spliced (A := o.ptrs) (P := []) (c := U.ptr) (d := d)
    ⟨hL.lifted, fun x hx => ?_, fun x hx _ _ _ => ?_⟩
    ho (List.Subset.refl _) fun x hx => ⟨List.not_mem_nil, ?_, ?_, ?_⟩
  · cases hx
  · rw [← map_ptr_subtrees] at hx
    obtain ⟨s, hs, rfl⟩ := List.mem_map.1 hx
    refine hL.beside s hs (fun hUs => hUp (ptr_mem_ptrs (subtrees_trans hUs hs))) fun hsU => ?_
    exact hdis _ (ptr_mem_ptrs (subtrees_trans hsU hU)) (ptr_mem_ptrs hs)
  · exact fun he => hSp (he ▸ hx)
  · exact fun he => hUp (he ▸ hx)
  · exact fun he => hUp (he ▸ hx)

/-- **What the writes of `doAction` leave of the tree.** -/
theorem Stored.replaceAt (hS : S ∈ U.subtrees) (hv : t.Valid) (hn : t.ptrs.Nodup) (hw : Within width t.subtreeTerminals)
    (hU : U ∈ t.subtrees) {parent sibling : Option Ptr} (ht : t.Stored width h parent sibling)
    (hL : Lifted h h' t U S (encode width (U.subtreeTerminals \ S.subtreeTerminals))) :
    (t.replaceAt U.ptr S).Stored width h' parent sibling := by
  induction t generalizing parent sibling with
  | leaf q x m =>
      obtain rfl := List.mem_singleton.1 hU
      obtain rfl := List.mem_singleton.1 hS
      rw [replaceAt_self]
      refine ht.move hn ?_ fun x hx => hL.below x hx
      rw [hL.lifted, ht.root]
      rfl
  | node q l r ihl ihr =>
      have hself : ∀ {u : Tree}, u.Valid → u.ptrs.Nodup → U ∈ u.subtrees →
          (u.replaceAt U.ptr S).subtreeTerminals = u.subtreeTerminals \ (U.subtreeTerminals \ S.subtreeTerminals) :=
        fun hv hn hU => (replaceAt_spec hS hv hn hU).2
      have hsub : U.subtreeTerminals \ S.subtreeTerminals ⊆ (node q l r).subtreeTerminals :=
        Finset.sdiff_subset.trans (subtreeTerminals_subset_of_mem_subtrees hU)
      obtain ⟨hl, hr⟩ := notMem_other hn
      have hn' := hn
      rw [ptrs, List.nodup_cons, List.nodup_append] at hn'
      -- the node above, once its children are known
      have join : U ∈ l.subtrees ∨ U ∈ r.subtrees → q ≠ U.ptr →
          (l.replaceAt U.ptr S).Stored width h' (some q) (some (r.replaceAt U.ptr S).ptr) →
          (r.replaceAt U.ptr S).Stored width h' (some q) (some (l.replaceAt U.ptr S).ptr) →
          (l.replaceAt U.ptr S).Valid → (r.replaceAt U.ptr S).Valid →
          (l.replaceAt U.ptr S).subtreeTerminals ⊆ l.subtreeTerminals →
          (r.replaceAt U.ptr S).subtreeTerminals ⊆ r.subtreeTerminals →
          (l.replaceAt U.ptr S).subtreeTerminals ∪ (r.replaceAt U.ptr S).subtreeTerminals =
            (node q l r).subtreeTerminals \ (U.subtreeTerminals \ S.subtreeTerminals) →
          ((node q l r).replaceAt U.ptr S).Stored width h' parent sibling := by
        intro hlr hq hls hrs hlv hrv hlt hrt hunion
        rw [Tree.replaceAt, if_neg hq]
        refine Stored.sortedNode hls hrs hlv hrv (hv.2.2.1.mono hlt hrt) (hw.mono (hunion ▸ Finset.sdiff_subset)) ?_
        have habove := hL.above q l r (mem_subtrees_self _) hlr
        rw [show h q = _ from ht.1] at habove
        refine habove.trans ?_
        rw [hunion, ← Bitset.xor_encode_subset width hsub, some_ptr_replaceAt, some_ptr_replaceAt]
        rfl
      rcases mem_subtrees_node.1 hU with rfl | hUl | hUr
      · obtain ⟨par, sib, hst⟩ := ht.of_mem hS
        rw [replaceAt_self]
        refine hst.move (nodup_of_mem_subtrees hS hn) ?_ fun x hx => hL.below x hx
        rw [hL.lifted, show h (node q l r).ptr = _ from ht.1]
        rfl
      · have hlm : l ∈ (node q l r).subtrees := mem_subtrees_node.2 (Or.inr (Or.inl (mem_subtrees_self l)))
        have hrm : r ∈ (node q l r).subtrees := mem_subtrees_node.2 (Or.inr (Or.inr (mem_subtrees_self r)))
        have hsame := replaceAt_of_notMem (S := S) hv.2.1 (hl U hUl).2
        have hst := hself hv.1 hn'.2.1 hUl
        have hrs := Stored.of_lifted (hL.of_mem hrm) ht.2.2 hS hUl fun x hx hx' => hn'.2.2.2 x hx x hx' rfl
        have hout : r.subtreeTerminals \ (U.subtreeTerminals \ S.subtreeTerminals) = r.subtreeTerminals :=
          Finset.sdiff_eq_self_of_disjoint (hv.2.2.1.symm.mono_right
            (Finset.sdiff_subset.trans (subtreeTerminals_subset_of_mem_subtrees hUl)))
        refine join (Or.inl hUl) (hl U hUl).1.symm ?_ ?_ (replaceAt_spec hS hv.1 hn'.2.1 hUl).1 ?_ ?_ ?_ ?_
        · rw [hsame]
          exact ihl hv.1 hn'.2.1 (hw.mono Finset.subset_union_left) hUl ht.2.1 (hL.of_mem hlm)
        · rw [hsame, some_ptr_replaceAt]
          exact hrs
        · rw [hsame]
          exact hv.2.1
        · rw [hst]
          exact Finset.sdiff_subset
        · rw [hsame]
        · rw [hsame, hst, subtreeTerminals, Finset.union_sdiff_distrib, hout]
      · have hlm : l ∈ (node q l r).subtrees := mem_subtrees_node.2 (Or.inr (Or.inl (mem_subtrees_self l)))
        have hrm : r ∈ (node q l r).subtrees := mem_subtrees_node.2 (Or.inr (Or.inr (mem_subtrees_self r)))
        have hsame := replaceAt_of_notMem (S := S) hv.1 (hr U hUr).2
        have hst := hself hv.2.1 hn'.2.2.1 hUr
        have hls := Stored.of_lifted (hL.of_mem hlm) ht.2.1 hS hUr fun x hx hx' => hn'.2.2.2 x hx' x hx rfl
        have hout : l.subtreeTerminals \ (U.subtreeTerminals \ S.subtreeTerminals) = l.subtreeTerminals :=
          Finset.sdiff_eq_self_of_disjoint (hv.2.2.1.mono_right
            (Finset.sdiff_subset.trans (subtreeTerminals_subset_of_mem_subtrees hUr)))
        refine join (Or.inr hUr) (hr U hUr).1.symm ?_ ?_ ?_ (replaceAt_spec hS hv.2.1 hn'.2.2.1 hUr).1 ?_ ?_ ?_
        · rw [hsame, some_ptr_replaceAt]
          exact hls
        · rw [hsame]
          exact ihr hv.2.1 hn'.2.2.1 (hw.mono Finset.subset_union_right) hUr ht.2.2 (hL.of_mem hrm)
        · rw [hsame]
          exact hv.1
        · rw [hsame]
        · rw [hst]
          exact Finset.sdiff_subset
        · rw [hsame, hst, subtreeTerminals, Finset.union_sdiff_distrib, hout]

/-- The subtree `U`, its parent `g` and its sibling `C`, and `S` below it. -/
structure Hangs (width : ℕ) (h : Nodes) (t U C S : Tree) (g : Ptr) : Prop where
  upper : h U.ptr = record width (some g) (some C.ptr) U
  sibling : h C.ptr = record width (some g) (some U.ptr) C
  children : (h g).leftChild = some U.ptr ∧ (h g).rightChild = some C.ptr ∨
    (h g).leftChild = some C.ptr ∧ (h g).rightChild = some U.ptr
  mem : g ∈ t.ptrs ∧ C.ptr ∈ t.ptrs
  lower : S ∈ U.subtrees ∧ S.ptr ≠ U.ptr
  out : g ∉ U.ptrs ∧ C.ptr ∉ U.ptrs ∧ C.ptr ≠ g

/-- Every inner subtree hangs below a node of the tree, with its sibling. -/
theorem Stored.hangs {parent sibling : Option Ptr} {C a b : Tree} {g : Ptr} (ht : t.Stored width h parent sibling)
    (hn : t.ptrs.Nodup) (hg : node g a b ∈ t.subtrees) (hab : a = U ∧ b = C ∨ a = C ∧ b = U) (hS : S ∈ U.subtrees)
    (hne : S ≠ U) : Hangs width h t U C S g := by
  obtain ⟨hl, hr, hsa, hsb⟩ := ht.children hg
  obtain ⟨hat, hbt⟩ := mem_subtrees_children hg
  have hgn := nodup_of_mem_subtrees hg hn
  obtain ⟨hain, hbin⟩ := notMem_other hgn
  rw [ptrs, List.nodup_cons, List.mem_append, not_or] at hgn
  have hUt : U ∈ t.subtrees := by
    rcases hab with ⟨rfl, -⟩ | ⟨-, rfl⟩
    · exact hat
    · exact hbt
  have hSU : S.ptr ≠ U.ptr := fun he =>
    hne (eq_of_ptr_eq hn (subtrees_trans hS hUt) hUt he)
  rcases hab with ⟨rfl, rfl⟩ | ⟨rfl, rfl⟩
  · obtain ⟨hbg, hba⟩ := hbin b (mem_subtrees_self b)
    exact ⟨hsa.root, hsb.root, Or.inl ⟨hl, hr⟩, ⟨ptr_mem_ptrs hg, ptr_mem_ptrs hbt⟩, ⟨hS, hSU⟩, hgn.1.1, hba, hbg⟩
  · obtain ⟨hag, hab⟩ := hain a (mem_subtrees_self a)
    exact ⟨hsb.root, hsa.root, Or.inr ⟨hl, hr⟩, ⟨ptr_mem_ptrs hg, ptr_mem_ptrs hat⟩, ⟨hS, hSU⟩, hgn.1.2, hab, hag⟩

section Hangs

variable {C : Tree} {g : Ptr}

/-- The nodes around a subtree that hangs differ from each other. -/
theorem Hangs.ne (hH : Hangs width h t U C S g) : S.ptr ≠ C.ptr ∧ g ≠ S.ptr ∧ C.ptr ≠ U.ptr := by
  obtain ⟨hg, hC, hCg⟩ := hH.out
  have hSU := ptr_mem_ptrs hH.lower.1
  exact ⟨fun he => hC (he ▸ hSU), fun he => hg (he ▸ hSU), fun he => hC (he ▸ ptr_mem_ptrs (mem_subtrees_self U))⟩

/-- What `relink` writes, on the tree. -/
theorem Hangs.relink_eq (hH : Hangs width h t U C S g) (ht : t.Stored width h none none) {x : Ptr} (hx : x ∈ t.ptrs) :
    ShortenChainAction.relink h S.ptr g C.ptr x =
      if x = S.ptr then { h x with parent := some g, sibling := some C.ptr }
      else { h x with
        sibling := rename U.ptr S.ptr (h x).sibling
        leftChild := rename U.ptr S.ptr (h x).leftChild
        rightChild := rename U.ptr S.ptr (h x).rightChild } := by
  obtain ⟨hSC, hgS, hCU⟩ := hH.ne
  obtain ⟨-, -, hCg⟩ := hH.out
  have hsib : (h x).sibling = some U.ptr → x = C.ptr := fun hs => by
    rcases ht.sibling_of_sibling hx hs with ⟨-, he⟩ | ⟨-, he⟩
    · cases he
    · rw [hH.upper] at he
      exact (Option.some.inj he).symm
  have hch : (h x).leftChild = some U.ptr ∨ (h x).rightChild = some U.ptr → x = g := fun hc => by
    have := (ht.parent_of_child hx hc).2
    rw [hH.upper] at this
    exact (Option.some.inj this).symm
  rw [ShortenChainAction.relink_apply hSC hgS]
  have hleft : (if x = g ∧ (h g).leftChild ≠ some C.ptr then some S.ptr else (h x).leftChild) =
      rename U.ptr S.ptr (h x).leftChild := by
    unfold rename
    by_cases hxg : x = g
    · rw [hxg]
      rcases hH.children with ⟨hl, -⟩ | ⟨hl, -⟩
      · simp [hl, Ne.symm hCU]
      · simp [hl, hCU]
    · rw [if_neg fun hc => hxg hc.1, if_neg fun hc => hxg (hch (Or.inl hc))]
  have hright : (if x = g ∧ (h g).leftChild = some C.ptr then some S.ptr else (h x).rightChild) =
      rename U.ptr S.ptr (h x).rightChild := by
    unfold rename
    by_cases hxg : x = g
    · rw [hxg]
      rcases hH.children with ⟨hl, hr⟩ | ⟨hl, hr⟩
      · simp [hl, hr, hCU, Ne.symm hCU]
      · simp [hl, hr]
    · rw [if_neg fun hc => hxg hc.1, if_neg fun hc => hxg (hch (Or.inr hc))]
  rw [hleft, hright]
  by_cases hxS : x = S.ptr
  · have hxC : x ≠ C.ptr := fun he => hSC (hxS.symm.trans he)
    have hxg : x ≠ g := fun he => hgS (he.symm.trans hxS)
    have hl : rename U.ptr S.ptr (h x).leftChild = (h x).leftChild := if_neg fun hc => hxg (hch (Or.inl hc))
    have hr : rename U.ptr S.ptr (h x).rightChild = (h x).rightChild := if_neg fun hc => hxg (hch (Or.inr hc))
    simp only [if_pos hxS, if_neg hxC, hl, hr]
  · have hs : (if x = C.ptr then some S.ptr else (h x).sibling) = rename U.ptr S.ptr (h x).sibling := by
      unfold rename
      by_cases hxC : x = C.ptr
      · rw [hxC, hH.sibling]
        simp [record]
      · rw [if_neg hxC, if_neg fun hc => hxC (hsib hc)]
    simp only [if_neg hxS, hs]

/-- Off the tree nothing is written. -/
theorem Hangs.relink_off (hH : Hangs width h t U C S g) (hU : U ∈ t.subtrees) {x : Ptr} (hx : x ∉ t.ptrs) :
    ShortenChainAction.relink h S.ptr g C.ptr x = h x := by
  obtain ⟨hSC, hgS, -⟩ := hH.ne
  have hxS : x ≠ S.ptr := fun he => hx (he ▸ ptr_mem_ptrs (subtrees_trans hH.lower.1 hU))
  have hxC : x ≠ C.ptr := fun he => hx (he ▸ hH.mem.2)
  have hxg : x ≠ g := fun he => hx (he ▸ hH.mem.1)
  rw [ShortenChainAction.relink_apply hSC hgS]
  simp [hxS, hxC, hxg]

variable {a b : Tree} {Q : List Tree}

/-- **The climb of `doAction`**, and the memory after it. -/
theorem Hangs.propagate_eq (hH : Hangs width h t U C S g) (ht : t.Stored width h none none) (hn : t.ptrs.Nodup)
    (hP : t.pathTo U = some (node g a b :: Q)) {fuel : ℕ} (hfuel : t.ptrs.length ≤ fuel) (d : List Bitset.Word) :
    ∃ h', (ShortenChainAction.relink h S.ptr g C.ptr).propagate (· ^^^ ·) d false fuel g (some g) = some (t.ptr, h') ∧
      Lifted h h' t U S d ∧ (∀ x ∉ t.ptrs, h' x = h x) ∧
      ∀ x ∈ t.ptrs, x ≠ S.ptr → (h' x).parent = (h x).parent ∧
        (h' x).sibling = rename U.ptr S.ptr (h x).sibling := by
  obtain ⟨hSC, hgS, hCU⟩ := hH.ne
  obtain ⟨hgU, hCUm, hCg⟩ := hH.out
  obtain ⟨hUt, hPmem⟩ := mem_of_mem_pathTo hP
  have hSU := ptr_mem_ptrs hH.lower.1
  set P := (node g a b :: Q).map ptr with hPdef
  have hPt : ∀ x ∈ P, x ∈ t.ptrs := fun x hx => by
    obtain ⟨u, hu, rfl⟩ := List.mem_map.1 hx
    exact ptr_mem_of_mem_pathTo hP hu
  have hPU : ∀ x ∈ U.ptrs, x ∉ P := fun x hx => notMem_pathTo hn hP hx
  -- the sibling hangs on the path
  have hbehind := ht.childrenBehind hP hn
  have hCP : C.ptr ∉ P := by
    refine hbehind.1 _ ?_
    rcases hH.children with ⟨-, hr⟩ | ⟨hl, -⟩
    · exact Or.inr hr
    · exact Or.inl hl
  have hsib : ∀ x ∈ P, rename U.ptr S.ptr (h x).sibling = (h x).sibling := fun x hx => if_neg fun hs => by
    rcases ht.sibling_of_sibling (hPt x hx) hs with ⟨-, he⟩ | ⟨-, he⟩
    · cases he
    · rw [hH.upper] at he
      exact hCP (Option.some.inj he ▸ hx)
  set H := ShortenChainAction.relink h S.ptr g C.ptr with hHdef
  have hHx : ∀ x ∈ t.ptrs, x ≠ S.ptr → H x = { h x with
      sibling := rename U.ptr S.ptr (h x).sibling
      leftChild := rename U.ptr S.ptr (h x).leftChild
      rightChild := rename U.ptr S.ptr (h x).rightChild } := fun x hx hxS => by
    rw [hHdef, hH.relink_eq ht hx, if_neg hxS]
  have hPS : ∀ x ∈ P, x ≠ S.ptr := fun x hx he => hPU _ hSU (he ▸ hx)
  have hchain := ht.parentChain hP
  rw [hH.upper] at hchain
  have hclimb : H.propagate (· ^^^ ·) d false fuel g (some g) =
      some (P.getLastD g, Nodes.sortAll P (Nodes.addLabels (· ^^^ ·) d P H)) := by
    refine Nodes.propagate_eq (hchain.congr fun x hx => by rw [hHx x (hPt x hx) (hPS x hx)])
      (nodup_pathTo hP hn) ?_ (Or.inr fun x hx => ?_) ?_
    · exact childrenBehind_rename hbehind (fun hmem => hPS _ hmem rfl) fun x hx => by
        rw [hHx x (hPt x hx) (hPS x hx)]
        exact ⟨rfl, rfl⟩
    · obtain ⟨hl, hr⟩ := ht.inner hP x hx
      rw [hHx x (hPt x hx) (hPS x hx)]
      unfold rename
      constructor <;> dsimp only <;> split_ifs <;> simp [hl, hr]
    · exact ((nodup_pathTo hP hn).subperm hPt).length_le.trans hfuel
  have hlast : P.getLastD g = t.ptr := by
    obtain ⟨R, hR⟩ := pathTo_last hP
    rw [hPdef, hR, List.map_append, List.map_singleton, List.getLastD_concat]
  rw [hlast] at hclimb
  set h' := Nodes.sortAll P (Nodes.addLabels (· ^^^ ·) d P H) with hh'
  have hwords : ∀ x, (Nodes.addLabels (· ^^^ ·) d P H x).subtreeTerminals = (h' x).subtreeTerminals := fun x => by
    rw [hh']
    by_cases hx : x ∈ P
    · rw [Nodes.sortAll_of_mem hx, Nodes.withSortedChildren_subtreeTerminals]
    · rw [Nodes.sortAll_of_notMem hx]
  have hin : ∀ x ∈ P, h' x = Nodes.withSortedChildren h' (Nodes.withLabels (· ^^^ ·) d (H x)) := fun x hx => by
    rw [hh', Nodes.sortAll_of_mem hx, Nodes.addLabels_of_mem hx, ← hh', Nodes.withSortedChildren_congr
      fun y _ => hwords y]
  have hout : ∀ x, x ∉ P → h' x = H x := fun x hx => by
    rw [hh', Nodes.sortAll_of_notMem hx, Nodes.addLabels_of_notMem hx]
  -- only the parent has `U` as a child
  have hch : ∀ x ∈ t.ptrs, x ∉ P → rename U.ptr S.ptr (h x).leftChild = (h x).leftChild ∧
      rename U.ptr S.ptr (h x).rightChild = (h x).rightChild := fun x hx hxP => by
    have hno : ¬((h x).leftChild = some U.ptr ∨ (h x).rightChild = some U.ptr) := fun hc => by
      have := (ht.parent_of_child hx hc).2
      rw [hH.upper] at this
      exact hxP (Option.some.inj this ▸ by simp [hPdef])
    exact ⟨if_neg fun hc => hno (Or.inl hc), if_neg fun hc => hno (Or.inr hc)⟩
  refine ⟨h', hclimb, ⟨?_, fun x hx hxS => ?_, fun q l r hq hlr => ?_, fun s hs hUs hsU => ?_⟩, fun x hx => ?_,
    fun x hx hxS => ?_⟩
  · rw [hout _ (hPU _ hSU), hHdef, hH.relink_eq ht (ptr_mem_ptrs (subtrees_trans hH.lower.1 hUt)), if_pos rfl,
      hH.upper]
    rfl
  · have hxU := ptrs_subset_of_mem_subtrees hH.lower.1 hx
    have hxt := ptrs_subset_of_mem_subtrees hUt hxU
    obtain ⟨hl, hr⟩ := hch x hxt (hPU x hxU)
    have hs : rename U.ptr S.ptr (h x).sibling = (h x).sibling := if_neg fun hs => by
      rcases ht.sibling_of_sibling hxt hs with ⟨-, he⟩ | ⟨-, he⟩
      · cases he
      · rw [hH.upper] at he
        exact hCUm (Option.some.inj he ▸ hxU)
    rw [hout x (hPU x hxU), hHx x hxt hxS, hs, hl, hr]
  · have hqP : q ∈ P := by
      have hmem : U ∈ (node q l r).subtrees := mem_subtrees_node.2 (Or.inr hlr)
      exact List.mem_map_of_mem (f := ptr) (mem_pathTo hP hn hq hmem (node_ne_of_mem hlr))
    rw [hin q hqP, hHx q (hPt q hqP) (hPS q hqP), hsib q hqP]
  · have hsP : s.ptr ∉ P := fun hmem => by
      obtain ⟨u, hu, hus⟩ := List.mem_map.1 hmem
      obtain ⟨hut, hUu, -⟩ := hPmem u hu
      exact hUs (eq_of_ptr_eq hn hut hs hus ▸ hUu)
    have hsS : s.ptr ≠ S.ptr := fun he =>
      hsU (eq_of_ptr_eq hn hs (subtrees_trans hH.lower.1 hUt) he ▸ hH.lower.1)
    obtain ⟨hl, hr⟩ := hch s.ptr (ptr_mem_ptrs hs) hsP
    rw [hout _ hsP, hHx _ (ptr_mem_ptrs hs) hsS, hl, hr]
  · rw [hout x fun hxP => hx (hPt x hxP), hHdef, hH.relink_off hUt hx]
  · by_cases hxP : x ∈ P
    · rw [hin x hxP, Nodes.withSortedChildren_parent, Nodes.withSortedChildren_sibling, Nodes.withLabels_parent,
        Nodes.withLabels_sibling, hHx x hx hxS]
      exact ⟨rfl, rfl⟩
    · rw [hout x hxP, hHx x hx hxS]
      exact ⟨rfl, rfl⟩

end Hangs

end ReplaceAt

end Tree

namespace Forest

section ReplaceAt

variable {width : ℕ} {F A B : Forest} {t U S : Tree} {p : Ptr}

/-- The forest with `S` in place of the subtree at the address `p`. -/
def replaceAt (p : Ptr) (S : Tree) (F : Forest) : Forest :=
  match F.find? fun t => decide (p ∈ t.ptrs) with
  | none => F
  | some t => insertRoot (t.replaceAt p S) (F.erase t)

/-- In a forest the tree with the node is replaced, and sorted in again. -/
theorem replaceAt_eq (hn : (A ++ t :: B).ptrs.Nodup) (hp : p ∈ t.ptrs) :
    (A ++ t :: B).replaceAt p S = insertRoot (t.replaceAt p S) (A ++ B) := by
  obtain ⟨-, hout⟩ := notMem_of_split hn
  have hfind : (A ++ t :: B).find? (fun t => decide (p ∈ t.ptrs)) = some t := by
    rw [List.find?_append, List.find?_eq_none.2 fun u hu => ?_, Option.none_or,
      List.find?_cons_of_pos (by simpa using hp)]
    simpa using fun hpu => hout u (List.mem_append_left _ hu) p hpu hp
  have htA : t ∉ A := fun htA =>
    hout t (List.mem_append_left _ htA) p hp hp
  unfold Forest.replaceAt
  rw [hfind]
  dsimp only
  rw [List.erase_append_right _ htA, List.erase_cons_head]

/-- **Where the subtree lies**, and the forest without it. -/
theorem exists_split (hF : F.Valid) (hU : U ∈ F.subtrees) (S : Tree) : ∃ A t B, F = A ++ t :: B ∧ U ∈ t.subtrees ∧
    (F.replaceAt U.ptr S).Perm (t.replaceAt U.ptr S :: (A ++ B)) ∧
    F.replaceAt U.ptr S = insertRoot (t.replaceAt U.ptr S) (A ++ B) := by
  obtain ⟨t, ht, hUt⟩ := mem_subtrees.1 hU
  obtain ⟨A, B, rfl⟩ := List.append_of_mem ht
  have heq := replaceAt_eq (S := S) hF.nodup (Tree.ptr_mem_ptrs hUt)
  exact ⟨A, t, B, rfl, hUt, heq ▸ perm_insertRoot _ _, heq⟩

variable (hF : F.Valid) (hU : U ∈ F.subtrees) (hS : S ∈ U.subtrees)
include hF hU hS

/-- **The addresses after the replacement.** -/
theorem mem_ptrs_replaceAt {x : Ptr} : x ∈ (F.replaceAt U.ptr S).ptrs ↔ x ∈ F.ptrs ∧ (x ∈ U.ptrs → x ∈ S.ptrs) := by
  obtain ⟨A, t, B, rfl, hUt, hperm, -⟩ := exists_split hF hU S
  obtain ⟨hnt, hout⟩ := notMem_of_split hF.nodup
  obtain ⟨-, hmem⟩ := Tree.ptrs_replaceAt hS (hF.tree t (by simp)) hnt hUt
  have hUp := Tree.ptrs_subset_of_mem_subtrees hUt
  rw [ptrs, (hperm.flatMap_right _).mem_iff, List.flatMap_cons, List.mem_append, hmem, ptrs,
    (List.perm_middle.flatMap_right _).mem_iff, List.flatMap_cons, List.mem_append]
  constructor
  · rintro (h | h)
    · exact ⟨Or.inl h.1, h.2⟩
    · obtain ⟨u, hu, hx⟩ := List.mem_flatMap.1 h
      exact ⟨Or.inr h, fun hxU => absurd (hUp hxU) (hout u hu x hx)⟩
  · rintro ⟨h | h, hx⟩
    · exact Or.inl ⟨h, hx⟩
    · exact Or.inr h

/-- **The terminals after the replacement.** -/
theorem leaf_mem_replaceAt {q : Ptr} {x : Label} {m : Finset Label} : Tree.leaf q x m ∈ (F.replaceAt U.ptr S).subtrees ↔
    Tree.leaf q x m ∈ F.subtrees ∧ (q ∈ U.ptrs → q ∈ S.ptrs) := by
  obtain ⟨A, t, B, rfl, hUt, hperm, -⟩ := exists_split hF hU S
  obtain ⟨hnt, hout⟩ := notMem_of_split hF.nodup
  have hmem := Tree.leaf_mem_replaceAt hS (hF.tree t (by simp)) hnt hUt (q := q) (x := x) (m := m)
  have hUp := Tree.ptrs_subset_of_mem_subtrees hUt
  rw [subtrees, (hperm.flatMap_right _).mem_iff, List.flatMap_cons, List.mem_append, hmem, subtrees,
    (List.perm_middle.flatMap_right _).mem_iff, List.flatMap_cons, List.mem_append]
  constructor
  · rintro (h | h)
    · exact ⟨Or.inl h.1, h.2⟩
    · obtain ⟨u, hu, hx⟩ := List.mem_flatMap.1 h
      exact ⟨Or.inr h, fun hq => absurd (hUp hq) (hout u hu q (Tree.ptr_mem_ptrs hx))⟩
  · rintro ⟨h | h, hx⟩
    · exact Or.inl ⟨h, hx⟩
    · exact Or.inr h

/-- **The forest stays valid.** -/
theorem Valid.replaceAt (hw : ∀ t ∈ F, Within width t.subtreeTerminals) : (F.replaceAt U.ptr S).Valid ∧
    ∀ u ∈ F.replaceAt U.ptr S, Within width u.subtreeTerminals := by
  obtain ⟨A, t, B, rfl, hUt, hperm, heq⟩ := exists_split hF hU S
  obtain ⟨hnt, hout⟩ := notMem_of_split hF.nodup
  have htv := hF.tree t (by simp)
  obtain ⟨hval, hterm⟩ := Tree.replaceAt_spec hS htv hnt hUt
  obtain ⟨hnt', hmem⟩ := Tree.ptrs_replaceAt hS htv hnt hUt
  have hsub : ∀ u ∈ A ++ B, u ∈ A ++ t :: B := fun u hu => by
    rcases List.mem_append.1 hu with hu | hu
    · simp [hu]
    · simp [hu]
  have hdis := (List.pairwise_append.1 hF.disjoint)
  have hdisj : ∀ u ∈ A ++ B, Disjoint (t.replaceAt U.ptr S).subtreeTerminals u.subtreeTerminals := fun u hu => by
    refine Disjoint.mono_left (hterm ▸ Finset.sdiff_subset) ?_
    rcases List.mem_append.1 hu with hu | hu
    · exact (hdis.2.2 u hu t (by simp)).symm
    · exact (List.pairwise_cons.1 hdis.2.1).1 u hu
  have hAB : (A ++ B).Sublist (A ++ t :: B) := (List.sublist_cons_self t B).append_left A
  refine ⟨⟨fun u hu => ?_, ?_, ?_, ?_⟩, fun u hu => ?_⟩
  · rcases List.mem_cons.1 (hperm.subset hu) with rfl | hu
    · exact hval
    · exact hF.tree u (hsub u hu)
  · refine (hperm.pairwise_iff fun h => h.symm).2 (List.pairwise_cons.2 ⟨hdisj, hF.disjoint.sublist hAB⟩)
  · rw [heq]
    refine sorted_insertRoot (hF.sorted.sublist hAB) fun u hu he => ?_
    exact Finset.disjoint_left.1 (hdisj u hu) (he ▸ Tree.least_mem _) (Tree.least_mem u)
  · rw [ptrs, (hperm.flatMap_right _).nodup_iff, List.flatMap_cons, List.nodup_append]
    refine ⟨hnt', ?_, fun a ha b hb he => ?_⟩
    · have := hF.nodup
      rw [ptrs] at this
      exact this.sublist (hAB.flatMap Tree.ptrs)
    · obtain ⟨u, hu, hx⟩ := List.mem_flatMap.1 hb
      exact hout u hu b hx (he ▸ ((hmem a).1 ha).1)
  · rcases List.mem_cons.1 (hperm.subset hu) with rfl | hu
    · exact (hw t (by simp)).mono (hterm ▸ Finset.sdiff_subset)
    · exact hw u (hsub u hu)

end ReplaceAt

section Link

variable {width : ℕ} {s : Store} {F : Forest} {x y : Label}

/-- A node with a parent, and its sibling. -/
theorem WellFormed.exists_parent (hF : F.WellFormed width s) {c : Tree} (hc : c ∈ F.subtrees) {q : Ptr}
    (hq : (s.nodes c.ptr).parent = some q) : ∃ o, (Tree.node q c o ∈ F.subtrees ∨ Tree.node q o c ∈ F.subtrees) ∧
      (s.nodes c.ptr).sibling = some o.ptr := by
  rcases root_or_child hc with hroot | ⟨p, l, r, hp, hcl⟩
  · rw [(hF.stored.trees c hroot).root] at hq
    cases hq
  · obtain ⟨t, ht, hpt⟩ := mem_subtrees.1 hp
    obtain ⟨-, -, hl, hr⟩ := (hF.stored.trees t ht).children hpt
    rcases hcl with rfl | rfl
    · rw [hl.root] at hq ⊢
      obtain rfl := Option.some.inj hq
      exact ⟨r, Or.inl hp, rfl⟩
    · rw [hr.root] at hq ⊢
      obtain rfl := Option.some.inj hq
      exact ⟨l, Or.inr hp, rfl⟩

/-- The children of an inner node. -/
theorem WellFormed.children (hF : F.WellFormed width s) {q : Ptr} {c o : Tree}
    (hq : Tree.node q c o ∈ F.subtrees ∨ Tree.node q o c ∈ F.subtrees) :
    (s.nodes c.ptr).parent = some q ∧ (s.nodes c.ptr).sibling = some o.ptr := by
  rcases hq with hq | hq
  · obtain ⟨t, ht, hqt⟩ := mem_subtrees.1 hq
    obtain ⟨-, -, hl, -⟩ := (hF.stored.trees t ht).children hqt
    rw [hl.root]
    exact ⟨rfl, rfl⟩
  · obtain ⟨t, ht, hqt⟩ := mem_subtrees.1 hq
    obtain ⟨-, -, -, hr⟩ := (hF.stored.trees t ht).children hqt
    rw [hr.root]
    exact ⟨rfl, rfl⟩

end Link

end Forest

namespace Graph.Store

/-- **The next terminal of a chain**: the sibling of the parent of the terminal of `x` is the
terminal of `y`, and its parent is not a root. -/
def Link (s : Store) (x y : Label) : Prop :=
  ∃ n p g u, s.labelToTerminal x = some n ∧ s.terminalToLabel n = some x ∧ (s.nodes n).parent = some p ∧
    (s.nodes p).parent = some g ∧ (s.nodes g).parent.isSome = true ∧ (s.nodes p).sibling = some u ∧
    s.terminalToLabel u = some y

end Graph.Store

namespace Tree

/-- `U` is `L` with the terminals of the labels hung one after another above it. -/
inductive Hung (L : Tree) : List Label → Tree → Prop
  | nil : Hung L [] L
  | left {ls : List Label} {u : Tree} (g v : Ptr) (x : Label) (m : Finset Label) (hu : Hung L ls u) :
      Hung L (ls ++ [x]) (node g u (leaf v x m))
  | right {ls : List Label} {u : Tree} (g v : Ptr) (x : Label) (m : Finset Label) (hu : Hung L ls u) :
      Hung L (ls ++ [x]) (node g (leaf v x m) u)

variable {L U : Tree} {ls : List Label}

/-- The bottom of a chain lies below its top. -/
theorem Hung.mem_subtrees (h : Hung L ls U) : L ∈ U.subtrees := by
  induction h with
  | nil => exact mem_subtrees_self L
  | left g v x m _ ih => exact mem_subtrees_node.2 (Or.inr (Or.inl ih))
  | right g v x m _ ih => exact mem_subtrees_node.2 (Or.inr (Or.inr ih))

/-- A chain with a terminal leads upwards. -/
theorem Hung.ne (h : Hung L ls U) (hls : ls ≠ []) : L ≠ U := by
  cases h with
  | nil => exact absurd rfl hls
  | left g v x m hu => exact (node_ne_of_mem (Or.inl hu.mem_subtrees)).symm
  | right g v x m hu => exact (node_ne_of_mem (Or.inr hu.mem_subtrees)).symm

/-- A terminal of `U` is one of `L` or hangs above it. -/
theorem Hung.mem_or_mem (h : Hung L ls U) {q : Ptr} {x : Label} {m : Finset Label} (hx : leaf q x m ∈ U.subtrees) :
    leaf q x m ∈ L.subtrees ∨ x ∈ ls := by
  induction h with
  | nil => exact Or.inl hx
  | left g v y m' _ ih =>
      rcases mem_subtrees_node.1 hx with hx | hx | hx
      · cases hx
      · exact (ih hx).imp_right (List.mem_append_left _)
      · cases List.mem_singleton.1 hx
        exact Or.inr (by simp)
  | right g v y m' _ ih =>
      rcases mem_subtrees_node.1 hx with hx | hx | hx
      · cases hx
      · cases List.mem_singleton.1 hx
        exact Or.inr (by simp)
      · exact (ih hx).imp_right (List.mem_append_left _)

/-- The terminals that hang above `L` are not in `L`. -/
theorem Hung.exists_leaf (h : Hung L ls U) (hn : U.ptrs.Nodup) {x : Label} (hx : x ∈ ls) :
    ∃ q m, leaf q x m ∈ U.subtrees ∧ q ∉ L.ptrs := by
  induction h with
  | nil => cases hx
  | left g v y m hu ih =>
      have hin := (notMem_other hn).2 _ (mem_subtrees_self (leaf v y m))
      rw [ptrs, List.nodup_cons, List.nodup_append] at hn
      rcases List.mem_append.1 hx with hx | hx
      · obtain ⟨q, m', hq, hL⟩ := ih hn.2.1 hx
        exact ⟨q, m', mem_subtrees_node.2 (Or.inr (Or.inl hq)), hL⟩
      · rw [List.mem_singleton.1 hx]
        exact ⟨v, m, mem_subtrees_node.2 (Or.inr (Or.inr (mem_subtrees_self _))), fun hL =>
          hin.2 (ptrs_subset_of_mem_subtrees hu.mem_subtrees hL)⟩
  | right g v y m hu ih =>
      have hin := (notMem_other hn).1 _ (mem_subtrees_self (leaf v y m))
      rw [ptrs, List.nodup_cons, List.nodup_append] at hn
      rcases List.mem_append.1 hx with hx | hx
      · obtain ⟨q, m', hq, hL⟩ := ih hn.2.2.1 hx
        exact ⟨q, m', mem_subtrees_node.2 (Or.inr (Or.inr hq)), hL⟩
      · rw [List.mem_singleton.1 hx]
        exact ⟨v, m, mem_subtrees_node.2 (Or.inr (Or.inl (mem_subtrees_self _))), fun hL =>
          hin.2 (ptrs_subset_of_mem_subtrees hu.mem_subtrees hL)⟩

end Tree

namespace Forest

section Shorten

variable {width : ℕ} {s : Store} {F : Forest} {L U : Tree} {lower x y : Label} {ls : List Label}

/-- The terminal of a label in the memory. -/
theorem Indexed.exists_terminal (hI : F.Indexed s) {p : Ptr} (hp : s.terminalToLabel p = some x) :
    ∃ m, Tree.leaf p x m ∈ F.subtrees ∧ s.labelToTerminal x = some p := by
  obtain ⟨m, hm⟩ := (hI.terminalToLabel p x).1 hp
  exact ⟨m, hm, (hI.labelToTerminal p x).2 ⟨x, m, hm, Finset.mem_insert_self ..⟩⟩

/-- **A chain hangs above the parent of its first terminal.** -/
theorem hung_of_isChain (hF : F.WellFormed width s) (hI : F.Indexed s) {n : Ptr} (hn : s.labelToTerminal lower = some n)
    (hp : (s.nodes n).parent = some L.ptr) (hL : L ∈ F.subtrees) (hchain : List.IsChain s.Link (lower :: ls)) :
    ∃ U z m, Tree.Hung L ls U ∧ U ∈ F.subtrees ∧ (lower :: ls).getLast? = some z ∧ s.labelToTerminal z = some m ∧
      (s.nodes m).parent = some U.ptr ∧ (ls ≠ [] → (s.nodes U.ptr).parent.isSome = true) := by
  induction ls using List.reverseRecOn with
  | nil => exact ⟨L, lower, n, Tree.Hung.nil, hL, rfl, hn, hp, fun h => absurd rfl h⟩
  | append_singleton ls y ih =>
      rw [← List.cons_append, List.isChain_append] at hchain
      obtain ⟨U, z, m, hU, hUF, hz, hm, hmU, -⟩ := ih hchain.1
      obtain ⟨m', p, g, u, hm', -, hp', hg, hgg, hu, hy⟩ := hchain.2.2 z hz y rfl
      obtain rfl := Option.some.inj (hm.symm.trans hm')
      obtain rfl := Option.some.inj (hmU.symm.trans hp')
      obtain ⟨o, hnode, hsib⟩ := hF.exists_parent hUF hg
      obtain ⟨k, hleaf, hyu⟩ := hI.exists_terminal hy
      have hoF : o ∈ F.subtrees := by
        rcases hnode with h | h
        · exact (mem_subtrees_children h).2
        · exact (mem_subtrees_children h).1
      obtain rfl : o = Tree.leaf u y k :=
        eq_of_ptr_eq hF.valid.nodup hoF hleaf (Option.some.inj (hsib.symm.trans hu))
      have hup : (s.nodes u).parent = some g := (hF.children (c := Tree.leaf u y k) (o := U) hnode.symm).1
      obtain ⟨V, hV, hVF, hVg⟩ : ∃ V, Tree.Hung L (ls ++ [y]) V ∧ V ∈ F.subtrees ∧ V.ptr = g := by
        rcases hnode with h | h
        · exact ⟨_, Tree.Hung.left g u y k hU, h, rfl⟩
        · exact ⟨_, Tree.Hung.right g u y k hU, h, rfl⟩
      subst hVg
      exact ⟨V, y, u, hV, hVF, by rw [← List.cons_append, List.getLast?_concat], hyu, hup, fun _ => hgg⟩

/-- The terminals that are taken out: those of `U` that are not in `L`. -/
theorem mem_iff_of_hung (hF : F.Valid) (hU : U ∈ F.subtrees) (hH : Tree.Hung L ls U) {q : Ptr} {m : Finset Label}
    (hq : Tree.leaf q x m ∈ F.subtrees) : q ∈ U.ptrs ∧ q ∉ L.ptrs ↔ x ∈ ls := by
  obtain ⟨t, ht, hUt⟩ := mem_subtrees.1 hU
  constructor
  · rintro ⟨hqU, hqL⟩
    rw [← Tree.map_ptr_subtrees] at hqU
    obtain ⟨w, hw, hwq⟩ := List.mem_map.1 hqU
    obtain rfl := eq_of_ptr_eq hF.nodup (mem_subtrees.2 ⟨t, ht, Tree.subtrees_trans hw hUt⟩) hq hwq
    exact (hH.mem_or_mem hw).resolve_left fun hmem => hqL (Tree.ptr_mem_ptrs hmem)
  · intro hx
    have hn := Tree.nodup_of_mem_subtrees hUt ((List.nodup_flatMap.1 hF.nodup).1 t ht)
    obtain ⟨q', m', hq', hL⟩ := hH.exists_leaf hn hx
    have h := labelToTerminal_leaf hF (mem_subtrees.2 ⟨t, ht, Tree.subtrees_trans hq' hUt⟩)
    rw [labelToTerminal_leaf hF hq] at h
    cases Option.some.inj h
    exact ⟨Tree.ptr_mem_ptrs hq', hL⟩

/-- The labels of a terminal lie in a subtree when the terminal does. -/
theorem mem_subtreeTerminals_iff (hF : F.Valid) {V : Tree} (hV : V ∈ F.subtrees) {q : Ptr} {m : Finset Label}
    (hq : Tree.leaf q x m ∈ F.subtrees) (hy : y ∈ insert x m) : y ∈ V.subtreeTerminals ↔ q ∈ V.ptrs := by
  constructor
  · intro hyV
    rcases hF.nested hq hV hy hyV with h | h
    · exact Tree.ptr_mem_ptrs h
    · rw [List.mem_singleton.1 h]
      exact Tree.ptr_mem_ptrs (Tree.mem_subtrees_self _)
  · intro hqV
    rw [← Tree.map_ptr_subtrees] at hqV
    obtain ⟨w, hw, hwq⟩ := List.mem_map.1 hqV
    obtain ⟨t, ht, hVt⟩ := mem_subtrees.1 hV
    obtain rfl := eq_of_ptr_eq hF.nodup (mem_subtrees.2 ⟨t, ht, Tree.subtrees_trans hw hVt⟩) hq hwq
    exact Tree.subtreeTerminals_subset_of_mem_subtrees hw hy

/-- **The nodes after `doAction`.** -/
theorem exists_lifted (hF : F.WellFormed width s) {A B : Forest} {t : Tree} (hsplit : F = A ++ t :: B)
    (hUt : U ∈ t.subtrees) (hL : L ∈ U.subtrees) (hne : L ≠ U) {g : Ptr} (hg : (s.nodes U.ptr).parent = some g)
    {fuel : ℕ} (hfuel : F.ptrs.length ≤ fuel) (d : List Bitset.Word) :
    ∃ C h', (s.nodes U.ptr).sibling = some C ∧
      (ShortenChainAction.relink s.nodes L.ptr g C).propagate (· ^^^ ·) d false fuel g (some g) = some (t.ptr, h') ∧
      (∀ x, (ShortenChainAction.relink s.nodes L.ptr g C x).subtreeTerminals = (s.nodes x).subtreeTerminals ∧
        (x ≠ L.ptr → (ShortenChainAction.relink s.nodes L.ptr g C x).parent = (s.nodes x).parent)) ∧
      Tree.Lifted s.nodes h' t U L d ∧ (∀ x ∉ t.ptrs, h' x = s.nodes x) ∧
      (∀ x ∈ t.ptrs, x ≠ L.ptr → (h' x).parent = (s.nodes x).parent ∧
        (h' x).sibling = Tree.rename U.ptr L.ptr (s.nodes x).sibling) ∧
      ∃ G ∈ t.subtrees, G.ptr = g ∧ U ∈ G.subtrees ∧ (h' g).subtreeTerminals =
        List.zipWith (· ^^^ ·) (encode width G.subtreeTerminals) d := by
  have ht : t ∈ F := hsplit ▸ by simp
  have hst := hF.stored.trees t ht
  have hn := (notMem_of_split (hsplit ▸ hF.valid.nodup)).1
  have hUr : U ≠ t := by
    rintro rfl
    rw [hst.root] at hg
    cases hg
  obtain ⟨P, hP⟩ := Tree.exists_pathTo hUt hUr
  obtain ⟨g', a, b, Q, rfl, hab⟩ := Tree.pathTo_head hP
  obtain ⟨C, hC⟩ : ∃ C, a = U ∧ b = C ∨ a = C ∧ b = U := by
    rcases hab with h | h
    · exact ⟨b, Or.inl ⟨h, rfl⟩⟩
    · exact ⟨a, Or.inr ⟨rfl, h⟩⟩
  obtain ⟨hGt, hUG, -⟩ := (Tree.mem_of_mem_pathTo hP).2 _ (List.mem_cons_self ..)
  have hH := hst.hangs hn hGt hC hL hne
  obtain rfl : g = g' := by
    rw [hH.upper] at hg
    exact (Option.some.inj hg).symm
  have hlen : t.ptrs.length ≤ fuel := by
    refine le_trans ?_ hfuel
    rw [hsplit, ptrs, List.flatMap_append, List.flatMap_cons, List.length_append, List.length_append]
    omega
  obtain ⟨h', hrun, hlift, hoff, hlinks⟩ := hH.propagate_eq hst hn hP hlen d
  obtain ⟨hSC, hgS, -⟩ := hH.ne
  refine ⟨C.ptr, h', by rw [hH.upper]; rfl, hrun, fun x => ?_, hlift, hoff, hlinks, _, hGt, rfl, hUG, ?_⟩
  · rw [ShortenChainAction.relink_apply hSC hgS]
    exact ⟨rfl, fun hx => if_neg hx⟩
  have hlr : U ∈ a.subtrees ∨ U ∈ b.subtrees := by
    rcases hC with ⟨rfl, -⟩ | ⟨-, rfl⟩
    · exact Or.inl (Tree.mem_subtrees_self _)
    · exact Or.inr (Tree.mem_subtrees_self _)
  obtain ⟨_, _, hGs⟩ := hst.of_mem hGt
  rw [hlift.above g a b hGt hlr, Nodes.withSortedChildren_subtreeTerminals, ← hGs.words]
  rfl

/-- **The roots after `doAction`.** -/
theorem exists_roots (hF : F.WellFormed width s) {A B : Forest} {t : Tree} (hsplit : F = A ++ t :: B)
    (hUt : U ∈ t.subtrees) (hL : L ∈ U.subtrees) {h' : Nodes}
    (hlift : Tree.Lifted s.nodes h' t U L (encode width (U.subtreeTerminals \ L.subtreeTerminals)))
    (hoff : ∀ x ∉ t.ptrs, h' x = s.nodes x) {G : Tree} (hG : G ∈ t.subtrees) (hUG : U ∈ G.subtrees)
    (hUr : U ≠ t)
    (hwords : (h' G.ptr).subtreeTerminals = List.zipWith (· ^^^ ·) (encode width G.subtreeTerminals)
      (encode width (U.subtreeTerminals \ L.subtreeTerminals))) :
    (s.roots.find? fun r => Bitset.hasSubset (h' G.ptr).subtreeTerminals (h' r).subtreeTerminals) = some t.ptr ∧
      (s.roots.erase t.ptr).insertIdx (lowerBound h' (s.roots.erase t.ptr) 0 t.ptr) t.ptr =
        (F.replaceAt U.ptr L).map Tree.ptr ∧
      ∀ u ∈ F.replaceAt U.ptr L, u.Stored width h' none none := by
  subst hsplit
  have ht : t ∈ A ++ t :: B := by simp
  have hU : U ∈ Forest.subtrees (A ++ t :: B) := mem_subtrees.2 ⟨t, ht, hUt⟩
  obtain ⟨hn, hout⟩ := notMem_of_split hF.valid.nodup
  have hsub : ∀ u ∈ A ++ B, u ∈ A ++ t :: B := fun u hu => by
    rcases List.mem_append.1 hu with hu | hu
    · simp [hu]
    · simp [hu]
  have heq := replaceAt_eq (S := L) hF.valid.nodup (Tree.ptr_mem_ptrs hUt)
  have hperm := perm_insertRoot (t.replaceAt U.ptr L) (A ++ B)
  obtain ⟨hval, hwithin⟩ := Valid.replaceAt hF.valid hU hL hF.within
  rw [heq] at hval hwithin ⊢
  -- the trees are stored
  have ht' := Tree.Stored.replaceAt hL (hF.valid.tree t ht) hn (hF.within t ht) hUt (hF.stored.trees t ht) hlift
  have hother : ∀ u ∈ A ++ B, u.Stored width h' none none := fun u hu =>
    (hF.stored.trees u (hsub u hu)).congr fun x hx => hoff x (hout u hu x hx)
  have hstored : ∀ u ∈ insertRoot (t.replaceAt U.ptr L) (A ++ B), u.Stored width h' none none := fun u hu => by
    rcases List.mem_cons.1 (hperm.subset hu) with rfl | hu
    · exact ht'
    · exact hother u hu
  have hptr : (t.replaceAt U.ptr L).ptr = t.ptr := by
    have h := Tree.some_ptr_replaceAt U.ptr L t
    rw [Tree.rename_of_ne fun he => hUr (Tree.eq_of_ptr_eq hn hUt (Tree.mem_subtrees_self t) he.symm)] at h
    exact Option.some.inj h
  -- the words of the parent and of the roots
  have hD : U.subtreeTerminals \ L.subtreeTerminals ⊆ G.subtreeTerminals :=
    Finset.sdiff_subset.trans (Tree.subtreeTerminals_subset_of_mem_subtrees hUG)
  rw [Bitset.xor_encode_subset width hD] at hwords
  have htw := ht'.words
  rw [hptr, (Tree.replaceAt_spec hL (hF.valid.tree t ht) hn hUt).2] at htw
  have hGt := Tree.subtreeTerminals_subset_of_mem_subtrees hG
  have hroot : Bitset.hasSubset (h' G.ptr).subtreeTerminals (h' t.ptr).subtreeTerminals = true := by
    rw [hwords, htw]
    exact Bitset.hasSubset_encode (Finset.sdiff_subset_sdiff hGt (Finset.Subset.refl _))
  have hnot : ∀ u ∈ A,
      Bitset.hasSubset (h' G.ptr).subtreeTerminals (h' u.ptr).subtreeTerminals = false := fun u hu => by
    rw [Bool.eq_false_iff]
    intro hsubset
    have hxL := Tree.least_mem L
    have hxU := Tree.subtreeTerminals_subset_of_mem_subtrees hL hxL
    have hxG := Tree.subtreeTerminals_subset_of_mem_subtrees hUG hxU
    obtain ⟨hpos, hle⟩ := hF.within t ht _ (hGt hxG)
    have huw := (hother u (List.mem_append_left _ hu)).words
    have hmem := Bitset.mem_of_hasSubset (x := L.least) hsubset (by rw [hwords, huw, Bitset.length_encode,
      Bitset.length_encode]) (by rw [hwords, Bitset.mem_encode hpos hle]; simp [hxG, hxL])
    rw [huw, Bitset.mem_encode hpos hle] at hmem
    have hdis := (List.pairwise_append.1 hF.valid.disjoint).2.2 u hu t (List.mem_cons_self ..)
    exact Finset.disjoint_left.1 hdis (of_decide_eq_true hmem) (hGt hxG)
  have hroots : s.roots = A.map Tree.ptr ++ t.ptr :: B.map Tree.ptr := by
    rw [hF.stored.roots, List.map_append, List.map_cons]
  refine ⟨?_, ?_, hstored⟩
  · rw [hroots, List.find?_append, List.find?_eq_none.2 fun r hr => ?_, Option.none_or]
    · exact List.find?_cons_of_pos hroot
    obtain ⟨u, hu, rfl⟩ := List.mem_map.1 hr
    rw [hnot u hu]
    exact Bool.false_ne_true
  · have hA : t.ptr ∉ A.map Tree.ptr := fun hmem => by
      obtain ⟨u, hu, hut⟩ := List.mem_map.1 hmem
      exact hout u (List.mem_append_left _ hu) u.ptr (Tree.ptr_mem_ptrs (Tree.mem_subtrees_self u))
        (hut ▸ Tree.ptr_mem_ptrs (Tree.mem_subtrees_self t))
    have hins := insertIdx_lowerBound (h := h') [] (G := A ++ B) (v := t.replaceAt U.ptr L) fun u hu => by
      refine hasSmallestTerminal_iff hval hwithin hstored (hperm.symm.subset (List.mem_cons_of_mem _ hu))
        (hperm.symm.subset (List.mem_cons_self ..)) ?_
      have := (hperm.pairwise_iff fun h => Disjoint.symm h).1 hval.disjoint
      exact ((List.pairwise_cons.1 this).1 u hu).symm
    rw [hptr, List.nil_append, List.length_nil, List.nil_append] at hins
    rw [hroots, List.erase_append_right _ hA, List.erase_cons_head, ← List.map_append]
    exact hins

/-- **What `doAction` does to a forest**: it takes the terminals of `ls` out, and the chains
that share no terminal with this one stay chains. -/
structure Shortened (width : ℕ) (s : Store) (F : Forest) (ls : List Label) (s' : Store) (F' : Forest) : Prop where
  wellFormed : F'.WellFormed width s'
  indexed : F'.Indexed s'
  leaf_mem : ∀ q x m, Tree.leaf q x m ∈ F'.subtrees ↔ Tree.leaf q x m ∈ F.subtrees ∧ x ∉ ls
  length_le : F'.ptrs.length ≤ F.ptrs.length
  link : ∀ x y, x ∉ ls → y ∉ ls → s.Link x y → s'.Link x y

/-- The terminals keep their entries in the maps. -/
theorem Indexed.replaceAt (hF : F.Valid) (hI : F.Indexed s) (hU : U ∈ F.subtrees) (hL : L ∈ U.subtrees)
    {D : List Label} (hD : ∀ x, x ∈ D ↔ x ∈ U.subtreeTerminals \ L.subtreeTerminals) {s' : Store}
    (hl : s'.labelToTerminal = fun label => if label ∈ D then none else s.labelToTerminal label)
    (ht : s'.terminalToLabel = fun n => (s.terminalToLabel n).filter fun label => label ∉ D) :
    (F.replaceAt U.ptr L).Indexed s' := by
  obtain ⟨t, htF, hUt⟩ := mem_subtrees.1 hU
  have hLF : L ∈ F.subtrees := mem_subtrees.2 ⟨t, htF, Tree.subtrees_trans hL hUt⟩
  have hmem : ∀ {q x y m}, Tree.leaf q x m ∈ F.subtrees → y ∈ insert x m → (y ∉ D ↔ (q ∈ U.ptrs → q ∈ L.ptrs)) := by
    intro q x y m hq hy
    rw [hD, Finset.mem_sdiff, mem_subtreeTerminals_iff hF hU hq hy, mem_subtreeTerminals_iff hF hLF hq hy,
      not_and_not_right]
  refine ⟨fun p x => ?_, fun p x => ?_⟩
  · rw [ht, Option.filter_eq_some_iff, hI.terminalToLabel]
    constructor
    · rintro ⟨⟨m, hm⟩, hx⟩
      exact ⟨m, (leaf_mem_replaceAt hF hU hL).2 ⟨hm, (hmem hm (Finset.mem_insert_self ..)).1 (of_decide_eq_true hx)⟩⟩
    · rintro ⟨m, hm⟩
      obtain ⟨hm, hp⟩ := (leaf_mem_replaceAt hF hU hL).1 hm
      exact ⟨⟨m, hm⟩, decide_eq_true ((hmem hm (Finset.mem_insert_self ..)).2 hp)⟩
  · rw [hl]
    constructor
    · intro h
      dsimp only at h
      split_ifs at h with hx
      obtain ⟨l, m, hm, hxm⟩ := (hI.labelToTerminal p x).1 h
      exact ⟨l, m, (leaf_mem_replaceAt hF hU hL).2 ⟨hm, (hmem hm hxm).1 hx⟩, hxm⟩
    · rintro ⟨l, m, hm, hxm⟩
      obtain ⟨hm, hp⟩ := (leaf_mem_replaceAt hF hU hL).1 hm
      dsimp only
      rw [if_neg ((hmem hm hxm).2 hp)]
      exact (hI.labelToTerminal p x).2 ⟨l, m, hm, hxm⟩

/-- The node at an address of the forest. -/
theorem exists_of_mem_ptrs {p : Ptr} (hp : p ∈ F.ptrs) : ∃ c ∈ F.subtrees, c.ptr = p := by
  rw [← map_ptr_subtrees] at hp
  exact List.mem_map.1 hp

/-- **Another chain does not run through the part that is taken out.** -/
theorem link_of_hung (hF : F.WellFormed width s) (hI : F.Indexed s) (hU : U ∈ F.subtrees) (hH : Tree.Hung L ls U)
    (hLn : L.isTerminal = false)
    (hfirst : ∀ u y, (s.nodes L.ptr).sibling = some u → s.terminalToLabel u = some y → y ∈ ls) {F' : Forest}
    {s' : Store} (hF' : F'.WellFormed width s') (hroot : (s'.nodes L.ptr).parent.isSome = true)
    (hptrs : ∀ x, x ∈ F'.ptrs ↔ x ∈ F.ptrs ∧ (x ∈ U.ptrs → x ∈ L.ptrs))
    (hlinks : ∀ x ∈ F'.ptrs, x ≠ L.ptr → (s'.nodes x).parent = (s.nodes x).parent ∧
      ∀ y, (s.nodes x).sibling = some y → y ≠ U.ptr → (s'.nodes x).sibling = some y)
    (hl : ∀ x p, x ∉ ls → s.labelToTerminal x = some p → s.terminalToLabel p = some x → s'.labelToTerminal x = some p)
    (ht : ∀ x p, x ∉ ls → s.terminalToLabel p = some x → s'.terminalToLabel p = some x) (hx : x ∉ ls)
    (hy : y ∉ ls) (hxy : s.Link x y) : s'.Link x y := by
  obtain ⟨n, p, g, u, hn, hnx, hp, hg, hgg, hu, hyu⟩ := hxy
  obtain ⟨m, hleaf, -⟩ := hI.exists_terminal hnx
  obtain ⟨k, huleaf, -⟩ := hI.exists_terminal hyu
  obtain ⟨t, htF, hUt⟩ := mem_subtrees.1 hU
  have hLF : L ∈ F.subtrees := mem_subtrees.2 ⟨t, htF, Tree.subtrees_trans hH.mem_subtrees hUt⟩
  have mem : ∀ {c : Tree}, c ∈ F.subtrees → c.ptr ∈ F.ptrs := fun hc =>
    map_ptr_subtrees F ▸ List.mem_map_of_mem hc
  -- the terminal stays
  have hnF' : n ∈ F'.ptrs := by
    refine (hptrs n).2 ⟨mem hleaf, fun hnU => ?_⟩
    by_contra hnL
    exact hx ((mem_iff_of_hung hF.valid hU hH hleaf).1 ⟨hnU, hnL⟩)
  have hnL : n ≠ L.ptr := fun he => by
    have := eq_of_ptr_eq hF.valid.nodup hleaf hLF he
    rw [← this] at hLn
    cases hLn
  have hp' : (s'.nodes n).parent = some p := (hlinks n hnF' hnL).1.trans hp
  obtain ⟨c, hc, rfl⟩ : ∃ c ∈ F'.subtrees, c.ptr = n := exists_of_mem_ptrs hnF'
  -- so does its parent, which is not that of `lower`
  have hpF' : p ∈ F'.ptrs := by
    obtain ⟨o, h, -⟩ := hF'.exists_parent hc hp'
    rcases h with h | h
    · exact map_ptr_subtrees F' ▸ List.mem_map_of_mem (f := Tree.ptr) h
    · exact map_ptr_subtrees F' ▸ List.mem_map_of_mem (f := Tree.ptr) h
  have hpL : p ≠ L.ptr := fun he => hy (hfirst u y (he ▸ hu) hyu)
  obtain ⟨hpar, hsib⟩ := hlinks p hpF' hpL
  have huU : u ≠ U.ptr := fun he => by
    have := eq_of_ptr_eq hF.valid.nodup huleaf hU he
    rw [← this] at hH
    rw [List.mem_singleton.1 hH.mem_subtrees] at hLn
    cases hLn
  have hgF' : g ∈ F'.ptrs := by
    obtain ⟨c', hc', rfl⟩ := exists_of_mem_ptrs hpF'
    obtain ⟨o, h, -⟩ := hF'.exists_parent hc' (hpar.trans hg)
    rcases h with h | h
    · exact map_ptr_subtrees F' ▸ List.mem_map_of_mem (f := Tree.ptr) h
    · exact map_ptr_subtrees F' ▸ List.mem_map_of_mem (f := Tree.ptr) h
  refine ⟨c.ptr, p, g, u, hl x _ hx hn hnx, ht x _ hx hnx, hp', hpar.trans hg, ?_, hsib u hu huU, ht y u hy hyu⟩
  by_cases hgL : g = L.ptr
  · rw [hgL]
    exact hroot
  · rw [(hlinks g hgF' hgL).1]
    exact hgg

/-- The entries of the maps that `doAction` remembers. -/
theorem Indexed.exists_entries (hI : F.Indexed s) (hU : U ∈ F.subtrees) {D : List Label}
    (hD : ∀ x ∈ D, x ∈ U.subtreeTerminals) : ∃ labels terminals,
      D.mapM (fun label => (s.labelToTerminal label).map fun n => (label, n)) = some labels ∧
      labels.mapM (fun entry => (s.terminalToLabel entry.2).map fun label => (entry.2, label)) = some terminals := by
  obtain ⟨labels, hlabels⟩ : ∃ labels, D.mapM (fun label => (s.labelToTerminal label).map fun n => (label, n)) =
      some labels := by
    refine Scan.exists_mapM fun x hx => ?_
    obtain ⟨w, hw, hwt, hxw⟩ := Tree.exists_terminal (hD x hx)
    cases w with
    | node => cases hwt
    | leaf q l k =>
        obtain ⟨v, hv, hUv⟩ := mem_subtrees.1 hU
        have := (hI.labelToTerminal q x).2 ⟨l, k, mem_subtrees.2 ⟨v, hv, Tree.subtrees_trans hw hUv⟩, hxw⟩
        exact ⟨(x, q), by rw [this]; rfl⟩
  obtain ⟨terminals, hterm⟩ : ∃ terminals, labels.mapM (fun entry => (s.terminalToLabel entry.2).map fun label =>
      (entry.2, label)) = some terminals := by
    refine Scan.exists_mapM fun e he => ?_
    obtain ⟨x, -, hx⟩ := (Scan.mapM_mem hlabels).2 e he
    obtain ⟨q, hq, rfl⟩ := Option.map_eq_some_iff.1 hx
    obtain ⟨l, k, hl, -⟩ := (hI.labelToTerminal q x).1 hq
    exact ⟨(q, l), by rw [(hI.terminalToLabel q l).2 ⟨k, hl⟩]; rfl⟩
  exact ⟨labels, terminals, hlabels, hterm⟩

/-- **The action succeeds on every chain.** -/
theorem exists_shorten (hF : F.WellFormed width s) (hI : F.Indexed s) {fuel : ℕ} (hfuel : F.ptrs.length ≤ fuel)
    (hls : ls ≠ []) (hchain : List.IsChain s.Link (lower :: ls)) {upper : Label}
    (hupper : (lower :: ls).getLast? = some upper) :
    ∃ act s' F', ShortenChainAction.doAction fuel lower upper s = some (act, s') ∧
      Shortened width s F ls s' F' := by
  -- the parents of the two terminals
  obtain ⟨y₀, rest, rfl⟩ := List.exists_cons_of_ne_nil hls
  obtain ⟨n, p, g₁, u₁, hn, hnx, hp, -, -, hu₁, hy₁⟩ := (List.isChain_cons_cons.1 hchain).1
  obtain ⟨k, hleaf, -⟩ := hI.exists_terminal hnx
  obtain ⟨L, hLF, rfl, hLn⟩ : ∃ L ∈ F.subtrees, L.ptr = p ∧ L.isTerminal = false := by
    obtain ⟨o, h, -⟩ := hF.exists_parent (c := Tree.leaf n lower k) hleaf hp
    rcases h with h | h
    · exact ⟨_, h, rfl, rfl⟩
    · exact ⟨_, h, rfl, rfl⟩
  obtain ⟨U, z, m, hH, hU, hz, hm, hmU, hg⟩ := hung_of_isChain hF hI hn hp hLF hchain
  obtain rfl := Option.some.inj (hz.symm.trans hupper)
  obtain ⟨g, hg⟩ := Option.isSome_iff_exists.1 (hg hls)
  have hL := hH.mem_subtrees
  obtain ⟨lm, km, hmleaf, -⟩ := (hI.labelToTerminal m z).1 hm
  have hmL : m ≠ L.ptr := fun he => by
    rw [← eq_of_ptr_eq hF.valid.nodup hmleaf hLF he] at hLn
    cases hLn
  -- the memory after the climb
  obtain ⟨A, t, B, hsplit, hUt, -, -⟩ := exists_split hF.valid hU L
  have hUr : U ≠ t := by
    rintro rfl
    rw [(hF.stored.trees U (hsplit ▸ by simp)).root] at hg
    cases hg
  obtain ⟨C, h', hsib, hrun, hrelink, hlift, hoff, hlinks, G, hGt, rfl, hUG, hwords⟩ :=
    exists_lifted hF hsplit hUt hL (hH.ne hls) hg hfuel (encode width (U.subtreeTerminals \ L.subtreeTerminals))
  obtain ⟨hroot, hroots, hstored⟩ := exists_roots hF hsplit hUt hL hlift hoff hGt hUG hUr hwords
  obtain ⟨hval, hwithin⟩ := Valid.replaceAt hF.valid hU hL hF.within
  have hterminals : ∀ {c : Tree}, c ∈ F.subtrees → (s.nodes c.ptr).subtreeTerminals = encode width c.subtreeTerminals :=
    fun hc => by
      obtain ⟨v, hv, hcv⟩ := mem_subtrees.1 hc
      obtain ⟨_, _, h⟩ := (hF.stored.trees v hv).of_mem hcv
      exact h.words
  have hbitmask : List.zipWith (· ^^^ ·) (ShortenChainAction.relink s.nodes L.ptr G.ptr C L.ptr).subtreeTerminals
      (ShortenChainAction.relink s.nodes L.ptr G.ptr C U.ptr).subtreeTerminals =
        encode width (U.subtreeTerminals \ L.subtreeTerminals) := by
    rw [(hrelink _).1, (hrelink _).1, hterminals hLF, hterminals hU, Bitset.xor_encode,
      symmDiff_of_le (Tree.subtreeTerminals_subset_of_mem_subtrees hL)]
  -- the labels that leave the maps
  have hwD : Within width (U.subtreeTerminals \ L.subtreeTerminals) := by
    obtain ⟨v, hv, hUv⟩ := mem_subtrees.1 hU
    exact (hF.within v hv).mono (Finset.sdiff_subset.trans (Tree.subtreeTerminals_subset_of_mem_subtrees hUv))
  set D := Bitset.elements (encode width (U.subtreeTerminals \ L.subtreeTerminals)) with hDdef
  have hD : ∀ x, x ∈ D ↔ x ∈ U.subtreeTerminals \ L.subtreeTerminals := fun x => Bitset.mem_elements hwD
  obtain ⟨labels, terminals, hlabels, hterm⟩ := hI.exists_entries hU fun x hx => (Finset.mem_sdiff.1 ((hD x).1 hx)).1
  let s' : Store := ⟨h', (s.roots.erase t.ptr).insertIdx (lowerBound h' (s.roots.erase t.ptr) 0 t.ptr) t.ptr,
    fun label => if label ∈ D then none else s.labelToTerminal label,
    fun n => (s.terminalToLabel n).filter fun label => label ∉ D⟩
  have hF' : (F.replaceAt U.ptr L).WellFormed width s' := ⟨hval, hwithin, hroots, hstored⟩
  refine ⟨⟨lower, z, U.ptr, (s.nodes L.ptr).sibling, labels, terminals,
    encode width (U.subtreeTerminals \ L.subtreeTerminals)⟩, s', F.replaceAt U.ptr L, ?_, hF',
      Indexed.replaceAt hF.valid hI hU hL hD rfl rfl, fun q x k => ?_, ?_,
    fun x y hx hy hxy => ?_⟩
  · unfold ShortenChainAction.doAction
    simp only [hm, hn, hmU, hg, hsib, hp, Option.bind_eq_bind, Option.bind_some, (hrelink m).2 hmL, hbitmask, hrun,
      hroot, ← hDdef, hlabels, hterm]
    rfl
  · rw [leaf_mem_replaceAt hF.valid hU hL]
    refine and_congr_right fun hq => ?_
    rw [← mem_iff_of_hung hF.valid hU hH hq, not_and_not_right]
  · refine (hval.nodup.subperm fun x hx => ?_).length_le
    exact ((mem_ptrs_replaceAt hF.valid hU hL).1 hx).1
  · have hout : ∀ x p, x ∉ y₀ :: rest → s.terminalToLabel p = some x → x ∉ D := fun x p hx hp hxD => by
      obtain ⟨k, hk, -⟩ := hI.exists_terminal hp
      rw [hD, Finset.mem_sdiff, mem_subtreeTerminals_iff hF.valid hU hk (Finset.mem_insert_self ..),
        mem_subtreeTerminals_iff hF.valid hLF hk (Finset.mem_insert_self ..)] at hxD
      exact hx ((mem_iff_of_hung hF.valid hU hH hk).1 hxD)
    refine link_of_hung hF hI hU hH hLn (fun u y hu hy => ?_) hF' ?_ (fun x => mem_ptrs_replaceAt hF.valid hU hL)
      (fun x hx hxL => ?_) (fun x p hx hp hpx => ?_) (fun x p hx hp => ?_) hx hy hxy
    · obtain rfl := Option.some.inj (hu₁.symm.trans hu)
      obtain rfl := Option.some.inj (hy₁.symm.trans hy)
      exact List.mem_cons_self ..
    · show (h' L.ptr).parent.isSome = true
      rw [hlift.lifted]
      show (s.nodes U.ptr).parent.isSome = true
      rw [hg]
      rfl
    · by_cases hxt : x ∈ t.ptrs
      · obtain ⟨hpar, hsib⟩ := hlinks x hxt hxL
        exact ⟨hpar, fun y hy hyU => by rw [hsib, hy, Tree.rename_of_ne hyU]⟩
      · show (h' x).parent = _ ∧ _
        rw [hoff x hxt]
        exact ⟨rfl, fun y hy _ => by rw [show s'.nodes x = s.nodes x from hoff x hxt, hy]⟩
    · exact (if_neg (hout x p hx hpx)).trans hp
    · rw [show s'.terminalToLabel p = (s.terminalToLabel p).filter fun label => label ∉ D from rfl, hp,
        Option.filter_some, if_pos (decide_eq_true (hout x p hx hp))]

end Shorten

end Forest
end Maf
