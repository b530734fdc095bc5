/-
# Reading a memory that holds forests

The rules of `src/Solver/Rule/*.cpp` follow the pointers of the nodes; the model of
their selection reads the trees off the memory (`Store.read`).  A memory that holds
forests is read as these forests (`Memory.Holds.read`).
-/

import Maf.Rule.Restore

namespace Maf

open Bitset (encode Within)
open Graph

section ReadTree

variable {width : ℕ} {s : Store}

/-- A stored terminal is read with its labels. -/
theorem readLeaf_eq {p : Ptr} {x : Label} {m : Finset Label} {parent sibling : Option Ptr}
    (hs : (Tree.leaf p x m).Stored width s.nodes parent sibling) (hv : (Tree.leaf p x m).Valid)
    (hw : Within width (Tree.leaf p x m).subtreeTerminals) (hx : s.terminalToLabel p = some x) :
    s.readLeaf p = .leaf p x m := by
  have hwords : (s.nodes p).subtreeTerminals = encode width (insert x m) := hs.words
  have helem : (Bitset.elements (encode width (insert x m))).toFinset = insert x m := by
    ext y
    rw [List.mem_toFinset]
    exact Bitset.mem_elements hw
  have hxm : x ∉ m := fun hmem => lt_irrefl x (hv.2 x hmem)
  simp only [Store.readLeaf, hx, Option.getD_some, hwords, helem, Finset.erase_insert hxm]

/-- **A stored tree is read back.** -/
theorem readTree_eq {t : Tree} {parent sibling : Option Ptr} {fuel : ℕ}
    (hs : t.Stored width s.nodes parent sibling) (hv : t.Valid) (hw : Within width t.subtreeTerminals)
    (hx : ∀ p x m, Tree.leaf p x m ∈ t.subtrees → s.terminalToLabel p = some x) (hfuel : t.ptrs.length ≤ fuel) :
    s.readTree fuel t.ptr = t := by
  induction t generalizing parent sibling fuel with
  | leaf p x m =>
      have hleaf := readLeaf_eq hs hv hw (hx p x m (Tree.mem_subtrees_self _))
      cases fuel with
      | zero => exact hleaf
      | succ fuel =>
          have hnode : s.nodes p = _ := hs
          simp only [Store.readTree, Tree.ptr_leaf, hnode, Tree.record, Tree.leftPtr]
          exact hleaf
  | node p l r ihl ihr =>
      obtain ⟨hp, hl, hr⟩ := hs
      obtain ⟨hlv, hrv, -, -⟩ := hv
      simp only [Tree.ptrs, List.length_cons, List.length_append] at hfuel
      obtain ⟨fuel, rfl⟩ := Nat.exists_eq_succ_of_ne_zero (show fuel ≠ 0 by omega)
      have hlt : s.readTree fuel l.ptr = l := ihl hl hlv (hw.mono Finset.subset_union_left)
        (fun q x m h => hx q x m (Tree.mem_subtrees_node.2 (Or.inr (Or.inl h)))) (by omega)
      have hrt : s.readTree fuel r.ptr = r := ihr hr hrv (hw.mono Finset.subset_union_right)
        (fun q x m h => hx q x m (Tree.mem_subtrees_node.2 (Or.inr (Or.inr h)))) (by omega)
      simp only [Store.readTree, Tree.ptr_node, hp, Tree.record, Tree.leftPtr, Tree.rightPtr, hlt, hrt]

end ReadTree

variable {width fuel : ℕ}

/-- **A forest in memory is read back.** -/
theorem Held.read {s : Store} {F : Forest} (h : Held width fuel s F) : s.read fuel = F := by
  rw [Store.read, h.wellFormed.stored.roots, List.map_map]
  refine (List.map_congr_left fun t ht => ?_).trans (List.map_id F)
  have hlen : t.ptrs.length ≤ F.ptrs.length := by
    obtain ⟨A, B, rfl⟩ := List.append_of_mem ht
    simp only [Forest.ptrs, List.flatMap_append, List.flatMap_cons, List.length_append]
    omega
  refine readTree_eq (h.wellFormed.stored.trees t ht) (h.wellFormed.valid.tree t ht)
    (h.wellFormed.within t ht) (fun p x m hx => ?_) (hlen.trans h.length_le)
  exact (h.indexed.terminalToLabel p x).2 ⟨m, Forest.mem_subtrees.2 ⟨t, ht, hx⟩⟩

/-- **A memory that holds forests is read as these forests.** -/
theorem Memory.Holds.read {m : Memory} {Fs : List Forest} (h : m.Holds width fuel Fs) : m.read fuel = Fs := by
  refine List.ext_getElem (by rw [Memory.read, List.length_map, h.length]) fun i hi hi' => ?_
  rw [Memory.read, List.length_map] at hi
  simp only [Memory.read, List.getElem_map]
  exact (h.held (List.getElem?_eq_getElem hi) (List.getElem?_eq_getElem hi')).read

end Maf
