/-
# A chain is put back

`ShortenChainAction::undoAction` of `src/Solver/Action/ShortenChainAction.cpp` puts the terminals
that `doAction` took out back above whatever is the parent of `lower` by then: cuts may have been
made in between.  That parent hangs below another node, or is a root, or `lower` stands alone.
The words and the order of the children of the chain are computed anew from below
(`recalculateChainSubtreeTerminals`), those above are corrected as in `doAction`, the root is
sorted in again and the labels get their entries back.

`Shelved` says what the memory keeps of a chain that was taken out.  In every forest that has
`lower` and none of the nodes of the chain the action succeeds, in all three cases
(`Receives.exists_undoAction`), and right after `doAction` it gives the memory back as it was
(`undoAction_shortened`).  As in `doAction`, `__builtin_ctzll(0)` is read as `64` (`Bitset.ctz`).
-/

import Maf.Action.ReplaceSubtree

namespace Bitset

/-- The loop of `smallestTerminal` from the word `i` on; `none` is the failed assertion. -/
def smallest : ℕ → List Word → Option ℕ
  | _, [] => none
  | i, w :: ws => if w = 0 then smallest (i + 1) ws else some (64 * i + ctz w + 1)

/-- The loop finds the least number of a set that is stored in words. -/
theorem smallest_words {S : Finset ℕ} {a : ℕ} (ha : IsLeast (S : Set ℕ) a) (n i : ℕ) (hi : 64 * i < a)
    (hn : a ≤ 64 * (i + n)) : smallest i ((List.range' i n).map (word S)) = some a := by
  induction n generalizing i with
  | zero => omega
  | succ n ih =>
      rw [List.range'_succ, List.map_cons, smallest]
      have hbit : ∀ h : a ≤ 64 * (i + 1), ctz (word S i) ≤ a - 64 * i - 1 := fun h =>
        ctz_le (by omega) (by rw [show 64 * i + (a - 64 * i - 1) + 1 = a by omega]; exact ha.1)
      split_ifs with h0
      · refine ih (i + 1) ?_ (by omega)
        by_contra hle
        have := hbit (by omega)
        rw [h0, ctz_zero] at this
        omega
      · have hlt := ctz_lt h0
        have hle : a ≤ 64 * i + ctz (word S i) + 1 := ha.2 (ctz_mem hlt)
        have := hbit (by omega)
        congr 1
        omega

/-- **`smallestTerminal`** is the smallest element. -/
theorem smallest_encode {width : ℕ} {S : Finset ℕ} {a : ℕ} (hS : Within width S) (ha : IsLeast (S : Set ℕ) a) :
    smallest 0 (encode width S) = some a := by
  obtain ⟨hpos, hle⟩ := hS a ha.1
  rw [encode, List.range_eq_range']
  exact smallest_words ha width 0 (by omega) (by omega)

end Bitset

namespace Maf

open Bitset (encode Within)
open Graph

namespace Graph

namespace ShortenChainAction

/-- `recalculateChainSubtreeTerminals`; `none` where the assertion fails or a null pointer is read. -/
def recalculateChainSubtreeTerminals (lowerNode : Ptr) : ℕ → Ptr → Nodes → Option (Label × Nodes)
  | 0, _, _ => none
  | fuel + 1, upperNode, h =>
      if (h upperNode).leftChild = none ∨ upperNode = lowerNode then
        (Bitset.smallest 0 (h upperNode).subtreeTerminals).map fun x => (x, h)
      else do
        let left ← (h upperNode).leftChild
        let (leftMinLabel, h) ← recalculateChainSubtreeTerminals lowerNode fuel left h
        let right ← (h upperNode).rightChild
        let (rightMinLabel, h) ← recalculateChainSubtreeTerminals lowerNode fuel right h
        let h :=
          if rightMinLabel < leftMinLabel then
            h.modify upperNode fun n => { n with leftChild := n.rightChild, rightChild := n.leftChild }
          else h
        let left ← (h upperNode).leftChild
        let right ← (h upperNode).rightChild
        let words := List.zipWith (· ||| ·) (h left).subtreeTerminals (h right).subtreeTerminals
        some (min leftMinLabel rightMinLabel,
          h.modify upperNode fun n => { n with subtreeTerminals := words.take n.subtreeTerminals.length })

/-- `insert` of each entry, which keeps an entry that is there. -/
def insertAll {α β : Type*} [DecidableEq α] (entries : List (α × β)) (f : α → Option β) : α → Option β :=
  entries.foldl (fun f e => if (f e.1).isSome then f else Function.update f e.1 (some e.2)) f

/-- The writes of `undoAction` for a `lower` that is, or whose parent is, the root `node`. -/
def hangRoot (h : Nodes) (node bottom lowerUncle upperParent : Ptr) : Nodes :=
  ((relink h node bottom lowerUncle).setParent upperParent none).setSibling upperParent none

/-- The three cases of `undoAction`: the nodes, the roots without the one that is sorted in again,
and this root.  The writes to the chain are those of `relink`. -/
def hangBack (a : ShortenChainAction) (lowerUncle : Ptr) (s : Store) : Option (Nodes × List Ptr × Ptr) := do
  let lowerNode ← s.labelToTerminal a.lower
  let bottom ← (s.nodes lowerUncle).parent
  match (s.nodes lowerNode).parent with
  | some lowerParent =>
      match (s.nodes lowerParent).parent with
      | some chainParent => do
          let chainSibling ← (s.nodes lowerParent).sibling
          let h := relink (relink s.nodes lowerParent bottom lowerUncle) a.upperParent chainParent chainSibling
          let root ← s.roots.find? fun r => Bitset.hasSubset (h lowerNode).subtreeTerminals (h r).subtreeTerminals
          some (h, s.roots.erase root, root)
      | none =>
          if lowerParent ∈ s.roots then
            some (hangRoot s.nodes lowerParent bottom lowerUncle a.upperParent, s.roots.erase lowerParent,
              a.upperParent)
          else none
  | none =>
      if lowerNode ∈ s.roots then
        some (hangRoot s.nodes lowerNode bottom lowerUncle a.upperParent, s.roots.erase lowerNode, a.upperParent)
      else none

/-- **`undoAction`**; `none` where a null pointer or an iterator at the end is read, or an exception
is thrown. -/
def undoAction (fuel : ℕ) (a : ShortenChainAction) (s : Store) : Option Store := do
  let lowerUncle ← a.lowerUncle
  let (h, roots, root) ← hangBack a lowerUncle s
  let below ← (h lowerUncle).sibling
  let (_, h) ← recalculateChainSubtreeTerminals below fuel a.upperParent h
  let (_, h) ← h.propagate (· ^^^ ·) a.bitmaskReduceSubtreeTerminals false fuel a.upperParent (h a.upperParent).parent
  some
    { nodes := h
      roots := roots.insertIdx (lowerBound h roots 0 root) root
      labelToTerminal := insertAll a.reducedLabelToTerminal s.labelToTerminal
      terminalToLabel := insertAll a.reducedTerminalToLabel s.terminalToLabel }

/-- **The maps after the insertions**, of entries that agree with each other. -/
theorem insertAll_apply {α β : Type*} [DecidableEq α] {entries : List (α × β)} {f g : α → Option β}
    (hg : ∀ e ∈ entries, g e.1 = some e.2) (hf : ∀ e ∈ entries, f e.1 = none ∨ f e.1 = g e.1) (x : α) :
    insertAll entries f x = if x ∈ entries.map Prod.fst then g x else f x := by
  induction entries generalizing f with
  | nil => rfl
  | cons e entries ih =>
      rw [List.forall_mem_cons] at hg hf
      rw [insertAll, List.foldl_cons, ← insertAll, ih hg.2 fun e' he' => ?_]
      · rw [List.map_cons]
        by_cases hx : x ∈ entries.map Prod.fst
        · rw [if_pos hx, if_pos (List.mem_cons_of_mem _ hx)]
        · rw [if_neg hx]
          by_cases hxe : x = e.1
          · subst hxe
            rw [if_pos (List.mem_cons_self ..)]
            split_ifs with hsome
            · exact hf.1.resolve_left (Option.ne_none_iff_isSome.2 hsome)
            · rw [Function.update_self, hg.1]
          · rw [if_neg fun h => (List.mem_cons.1 h).elim hxe hx]
            split_ifs
            · rfl
            · exact Function.update_of_ne hxe ..
      · split_ifs
        · exact hf.2 e' he'
        · by_cases he : e'.1 = e.1
          · rw [he, Function.update_self, hg.1]
            exact Or.inr rfl
          · rw [Function.update_of_ne he]
            exact hf.2 e' he'

end ShortenChainAction

namespace Nodes

/-- Only what is written to the node counts. -/
theorem modify_congr {h : Nodes} {p : Ptr} {f g : Node → Node} (hfg : f (h p) = g (h p)) :
    h.modify p f = h.modify p g := by
  rw [modify, modify, hfg]

/-- The climb writes above its start only. -/
theorem propagate_frame {op : Bitset.Word → Bitset.Word → Bitset.Word} {labels : List Bitset.Word} {guarded : Bool}
    {fuel : ℕ} {root r : Ptr} {start : Option Ptr} {h h' : Nodes}
    (hrun : propagate op labels guarded fuel root start h = some (r, h')) {D : Set Ptr} (hstart : ∀ p ∈ start, p ∈ D)
    (hD : ∀ x ∈ D, ∀ y, (h x).parent = some y → y ∈ D) : ∀ x ∉ D, h' x = h x := by
  induction fuel generalizing root start h with
  | zero =>
      cases start with
      | none => cases hrun; exact fun x _ => rfl
      | some p => cases hrun
  | succ fuel ih =>
      cases start with
      | none => cases hrun; exact fun x _ => rfl
      | some p =>
          have hp := hstart p rfl
          rw [propagate] at hrun
          dsimp only at hrun
          split_ifs at hrun
          set h₂ := (h.modify p (withLabels op labels)).modify p
            (withSortedChildren (h.modify p (withLabels op labels)))
            with hh₂
          have hpar : ∀ x, (h₂ x).parent = (h x).parent := fun x => by
            rw [hh₂, modify_apply]
            split_ifs with hx
            · rw [withSortedChildren_parent, hx, modify_self, withLabels_parent]
            · rw [modify_of_ne _ _ hx]
          intro x hx
          have hxp : x ≠ p := fun he => hx (he ▸ hp)
          rw [ih hrun (fun q hq => hD p hp q ((hpar p).symm.trans hq))
            (fun y hy z hz => hD y hy z ((hpar y).symm.trans hz)) x hx,
            hh₂, modify_of_ne _ _ hxp, modify_of_ne _ _ hxp]

end Nodes
end Graph

namespace Tree

open ShortenChainAction (recalculateChainSubtreeTerminals)

variable {width : ℕ} {h h₀ : Nodes} {L U X : Tree} {ls : List Label}

/-- The smallest terminal of a stored tree. -/
theorem Stored.smallest {t : Tree} {parent sibling : Option Ptr} (ht : t.Stored width h parent sibling) (hv : t.Valid)
    (hw : Within width t.subtreeTerminals) : Bitset.smallest 0 (h t.ptr).subtreeTerminals = some t.least := by
  rw [ht.words]
  exact Bitset.smallest_encode hw ⟨t.least_mem, fun _ hx => hv.least_le hx⟩

/-- A terminal, or the node where the chain begins, ends the recursion. -/
theorem Stored.recalculate {t : Tree} {lower : Ptr} {parent sibling : Option Ptr} (ht : t.Stored width h parent sibling)
    (hv : t.Valid) (hw : Within width t.subtreeTerminals) (hend : t.isTerminal = true ∨ t.ptr = lower) (fuel : ℕ) :
    recalculateChainSubtreeTerminals lower (fuel + 1) t.ptr h = some (t.least, h) := by
  rw [recalculateChainSubtreeTerminals, if_pos, ht.smallest hv hw]
  · rfl
  · refine hend.imp_left fun hterm => ?_
    rw [ht.root]
    cases t with
    | leaf => rfl
    | node => cases hterm

/-- **One node of the chain**, once both of its children are done. -/
theorem recalculate_node {g lower : Ptr} {l r : Tree} {parent sibling : Option Ptr} {h₁ h₂ : Nodes} {fuel : ℕ}
    (hg : h g = ⟨parent, sibling, some l.ptr, some r.ptr, (h g).subtreeTerminals⟩)
    (hlen : (h g).subtreeTerminals.length = width) (hne : g ≠ lower)
    (hrunl : recalculateChainSubtreeTerminals lower fuel l.ptr h = some (l.least, h₁))
    (hrunr : recalculateChainSubtreeTerminals lower fuel r.ptr h₁ = some (r.least, h₂)) (h₁g : h₁ g = h g)
    (h₂g : h₂ g = h g) (hl : l.Stored width h₂ (some g) (some r.ptr)) (hr : r.Stored width h₂ (some g) (some l.ptr))
    (hgl : g ∉ l.ptrs) (hgr : g ∉ r.ptrs) :
    ∃ h', recalculateChainSubtreeTerminals lower (fuel + 1) g h = some ((sortedNode g l r).least, h') ∧
      (sortedNode g l r).Stored width h' parent sibling ∧ ∀ x, x ≠ g → h' x = h₂ x := by
  have hleft : (h g).leftChild = some l.ptr := by rw [hg]
  have hright : (h₁ g).rightChild = some r.ptr := by rw [h₁g, hg]
  have hstart : ¬((h g).leftChild = none ∨ g = lower) := by
    rw [hleft]
    simpa using hne
  have hwidth : ∀ A : Finset Label, (encode width A).take (h g).subtreeTerminals.length = encode width A := fun A => by
    rw [hlen, List.take_of_length_le (Bitset.length_encode width A).le]
  have hkeep : ∀ {t : Tree} {par sib : Option Ptr} {h' : Nodes}, t.Stored width h₂ par sib → g ∉ t.ptrs →
      (∀ x, x ≠ g → h' x = h₂ x) → t.Stored width h' par sib := fun ht hgt heq =>
    ht.congr fun x hx => heq x fun he => hgt (he ▸ hx)
  unfold sortedNode
  split_ifs with hlt
  · set h₃ := h₂.modify g fun n => { n with leftChild := n.rightChild, rightChild := n.leftChild } with hh₃
    have h₃g : h₃ g = ⟨parent, sibling, some r.ptr, some l.ptr, (h g).subtreeTerminals⟩ := by
      rw [hh₃, Nodes.modify_self, h₂g, hg]
    have h₃x : ∀ x, x ≠ g → h₃ x = h₂ x := fun x hx => Nodes.modify_of_ne _ _ hx
    set h₄ := h₃.modify g fun n => { n with subtreeTerminals := encode width (r.subtreeTerminals ∪ l.subtreeTerminals) }
      with hh₄
    have h₄x : ∀ x, x ≠ g → h₄ x = h₂ x := fun x hx => (Nodes.modify_of_ne _ _ hx).trans (h₃x x hx)
    refine ⟨h₄, ?_, ⟨?_, hkeep hr hgr h₄x, hkeep hl hgl h₄x⟩, h₄x⟩
    · rw [recalculateChainSubtreeTerminals, if_neg hstart, hleft]
      simp only [Option.bind_eq_bind, Option.bind_some, hrunl, hright, hrunr, if_pos hlt, ← hh₃, h₃g,
        (hkeep hr hgr h₃x).words, (hkeep hl hgl h₃x).words, Bitset.or_encode]
      rw [least, min_comm, hh₄, Nodes.modify_congr]
      rw [h₃g, hwidth]
    · rw [hh₄, Nodes.modify_self, h₃g]
      rfl
  · set h₄ := h₂.modify g fun n => { n with subtreeTerminals := encode width (l.subtreeTerminals ∪ r.subtreeTerminals) }
      with hh₄
    have h₄x : ∀ x, x ≠ g → h₄ x = h₂ x := fun x hx => Nodes.modify_of_ne _ _ hx
    have h₂g' : h₂ g = ⟨parent, sibling, some l.ptr, some r.ptr, (h g).subtreeTerminals⟩ := h₂g.trans hg
    refine ⟨h₄, ?_, ⟨?_, hkeep hl hgl h₄x, hkeep hr hgr h₄x⟩, h₄x⟩
    · rw [recalculateChainSubtreeTerminals, if_neg hstart, hleft]
      simp only [Option.bind_eq_bind, Option.bind_some, hrunl, hright, hrunr, if_neg hlt, h₂g', hl.words, hr.words,
        Bitset.or_encode]
      rw [least, hh₄, Nodes.modify_congr]
      rw [h₂g', hwidth]
    · rw [hh₄, Nodes.modify_self, h₂g']
      rfl

/-- A node of the chain with `X` in the place of `L`. -/
def relinked (L X : Ptr) (n : Node) : Node :=
  { n with
    sibling := rename L X n.sibling
    leftChild := rename L X n.leftChild
    rightChild := rename L X n.rightChild }

/-- **The chain hangs above `X`**, in the place of `L`, before its words are computed anew. -/
structure Rehung (width : ℕ) (h₀ h : Nodes) (L U X : Tree) (parent sibling : Option Ptr) : Prop where
  chain : ∀ x ∈ U.ptrs, x ∉ L.ptrs → x ≠ U.ptr → h x = relinked L.ptr X.ptr (h₀ x)
  top : U ≠ L → h U.ptr = { relinked L.ptr X.ptr (h₀ U.ptr) with parent := parent, sibling := sibling }
  bottom : U ≠ L → X.Stored width h (h₀ L.ptr).parent (h₀ L.ptr).sibling
  alone : U = L → X.Stored width h parent sibling

/-- An address of `L` belongs to it. -/
theorem ptr_notMem_of_ne (hn : U.ptrs.Nodup) (hL : L ∈ U.subtrees) (hne : U ≠ L) : U.ptr ∉ L.ptrs := fun hmem => by
  rw [← map_ptr_subtrees] at hmem
  obtain ⟨w, hw, hwU⟩ := List.mem_map.1 hmem
  obtain rfl := eq_of_ptr_eq hn (subtrees_trans hw hL) (mem_subtrees_self U) hwU
  exact hne (subtrees_antisymm hw hL)

/-- The chain without its upper element. -/
theorem Rehung.below {g : Ptr} {u o : Tree} {parent sibling par sib : Option Ptr}
    (hR : Rehung width h₀ h L U X parent sibling) (hU : U = node g u o ∨ U = node g o u)
    (hst : U.Stored width h₀ par sib) (hn : U.ptrs.Nodup) (hL : L ∈ u.subtrees) :
    Rehung width h₀ h L u X (some g) (some o.ptr) := by
  have hu : u.Stored width h₀ (some g) (some o.ptr) ∧ g ∉ u.ptrs ∧ o.ptr ∉ u.ptrs ∧ u.ptrs.Nodup ∧ u.ptrs ⊆ U.ptrs ∧
      U ≠ L ∧ U.ptr = g := by
    rcases hU with rfl | rfl
    · have hin := (notMem_other hn).2 o (mem_subtrees_self o)
      rw [ptrs, List.nodup_cons, List.mem_append, not_or, List.nodup_append] at hn
      exact ⟨hst.2.1, hn.1.1, hin.2, hn.2.1, fun x hx => by simp [hx], node_ne_of_mem (Or.inl hL), rfl⟩
    · have hin := (notMem_other hn).1 o (mem_subtrees_self o)
      rw [ptrs, List.nodup_cons, List.mem_append, not_or, List.nodup_append] at hn
      exact ⟨hst.2.2, hn.1.2, hin.2, hn.2.2.1, fun x hx => by simp [hx], node_ne_of_mem (Or.inr hL), rfl⟩
  obtain ⟨hust, hgu, hou, hun, hsub, hUL, hUg⟩ := hu
  have hLu := ptrs_subset_of_mem_subtrees hL
  refine ⟨fun x hx hxL hxu => hR.chain x (hsub hx) hxL fun he => hgu (hUg ▸ he ▸ hx), fun hne => ?_,
    fun _ => hR.bottom hUL,
    fun he => ?_⟩
  · have hup := ptr_mem_ptrs (mem_subtrees_self u)
    rw [hR.chain _ (hsub hup) (ptr_notMem_of_ne hun hL hne) fun he => hgu (hUg ▸ he ▸ hup), hust.root]
    have ho : rename L.ptr X.ptr (some o.ptr) = some o.ptr :=
      rename_of_ne fun he => hou (he ▸ hLu (ptr_mem_ptrs (mem_subtrees_self L)))
    simp only [relinked, record, ho]
  · have := hR.bottom hUL
    rw [← he, hust.root] at this
    exact this

/-- The upper element of the chain, and its terminal. -/
theorem Rehung.upper {g v : Ptr} {x : Label} {m : Finset Label} {u : Tree} {parent sibling par sib : Option Ptr}
    (hR : Rehung width h₀ h L U X parent sibling) (hU : U = node g u (leaf v x m) ∨ U = node g (leaf v x m) u)
    (hst : U.Stored width h₀ par sib) (hn : U.ptrs.Nodup) (hL : L ∈ u.subtrees) :
    h g = { relinked L.ptr X.ptr (h₀ g) with parent := parent, sibling := sibling } ∧
      (leaf v x m).Stored width h (some g) (some (u.replaceAt L.ptr X).ptr) ∧
        g ∉ L.ptrs ∧ v ∉ u.ptrs ∧ g ∉ u.ptrs ∧ g ≠ v := by
  have hu : (leaf v x m).Stored width h₀ (some g) (some u.ptr) ∧ g ∉ u.ptrs ∧ v ∉ u.ptrs ∧ v ∈ U.ptrs ∧ U ≠ L ∧
      U.ptr = g ∧ g ≠ v := by
    rcases hU with rfl | rfl
    · have hin := (notMem_other hn).2 _ (mem_subtrees_self (leaf v x m))
      rw [ptrs, List.nodup_cons, List.mem_append, not_or] at hn
      exact ⟨hst.2.2, hn.1.1, hin.2, by simp [ptrs], node_ne_of_mem (Or.inl hL), rfl, hin.1.symm⟩
    · have hin := (notMem_other hn).1 _ (mem_subtrees_self (leaf v x m))
      rw [ptrs, List.nodup_cons, List.mem_append, not_or] at hn
      exact ⟨hst.2.1, hn.1.2, hin.2, by simp [ptrs], node_ne_of_mem (Or.inr hL), rfl, hin.1.symm⟩
  obtain ⟨hleaf, hgu, hvu, hvU, hUL, hUg, hgv⟩ := hu
  have hLu := ptrs_subset_of_mem_subtrees hL
  refine ⟨hUg ▸ hR.top hUL, ?_, fun hg => hgu (hLu hg), hvu, hgu, hgv⟩
  have hv : h v = _ := hR.chain v hvU (fun hv => hvu (hLu hv)) (hUg ▸ hgv.symm)
  rw [show h₀ v = _ from hleaf] at hv
  refine hv.trans ?_
  rw [some_ptr_replaceAt]
  rfl

/-- **The words and the order of the chain are computed anew.** -/
theorem recalculate_spec (hH : Hung L ls U) (hUv : U.Valid) (hn : U.ptrs.Nodup) (hXv : X.Valid)
    (hw : Within width ((U.subtreeTerminals \ L.subtreeTerminals) ∪ X.subtreeTerminals))
    (hd : Disjoint (U.subtreeTerminals \ L.subtreeTerminals) X.subtreeTerminals)
    (hout : ∀ x ∈ U.ptrs, x ∉ L.ptrs → x ∉ X.ptrs) {par sib parent sibling : Option Ptr}
    (hst : U.Stored width h₀ par sib) (hR : Rehung width h₀ h L U X parent sibling) {fuel : ℕ}
    (hfuel : ls.length < fuel) :
    ∃ h', recalculateChainSubtreeTerminals X.ptr fuel (U.replaceAt L.ptr X).ptr h =
        some ((U.replaceAt L.ptr X).least, h') ∧
      (U.replaceAt L.ptr X).Stored width h' parent sibling ∧ ∀ x, (x ∈ U.ptrs → x ∈ L.ptrs) → h' x = h x := by
  induction hH generalizing par sib parent sibling fuel with
  | nil =>
      obtain ⟨fuel, rfl⟩ := Nat.exists_eq_succ_of_ne_zero (show fuel ≠ 0 by omega)
      rw [replaceAt_self]
      have hX := hR.alone rfl
      exact ⟨h, hX.recalculate hXv (hw.mono Finset.subset_union_right) (Or.inr rfl) fuel, hX, fun _ _ => rfl⟩
  | @left ls u g v x m hu ih =>
      rw [List.length_append, List.length_singleton] at hfuel
      obtain ⟨fuel, rfl⟩ := Nat.exists_eq_succ_of_ne_zero (show fuel ≠ 0 by omega)
      obtain ⟨f, rfl⟩ := Nat.exists_eq_succ_of_ne_zero (show fuel ≠ 0 by omega)
      have hL := hu.mem_subtrees
      have hLu := ptrs_subset_of_mem_subtrees hL
      have hLp := ptr_mem_ptrs (mem_subtrees_self L)
      obtain ⟨hg, hleaf, hgL, hvu, hgu, hgv⟩ := hR.upper (Or.inl rfl) hst hn hL
      have hn' := hn
      rw [ptrs, List.nodup_cons, List.nodup_append] at hn'
      have hsub : u.subtreeTerminals \ L.subtreeTerminals ⊆
          (node g u (leaf v x m)).subtreeTerminals \ L.subtreeTerminals :=
        Finset.sdiff_subset_sdiff Finset.subset_union_left (Finset.Subset.refl _)
      obtain ⟨h₁, hrun, hust, hframe⟩ := ih hUv.1 hn'.2.1 (hw.mono (Finset.union_subset_union_left hsub))
        (hd.mono_left hsub) (fun y hy => hout y (by simp [hy])) hst.2.1 (hR.below (Or.inl rfl) hst hn hL)
        (show ls.length < f + 1 by omega)
      -- the node and its terminal
      have hgX : ¬g = L.ptr := fun he => hgL (he ▸ hLp)
      have hvX : L.ptr ∉ (leaf v x m).ptrs := fun hp => hvu (List.mem_singleton.1 hp ▸ hLu hLp)
      have hrep : (node g u (leaf v x m)).replaceAt L.ptr X = sortedNode g (u.replaceAt L.ptr X) (leaf v x m) := by
        rw [replaceAt, if_neg hgX, replaceAt_of_notMem hUv.2.1 hvX]
      rw [hrep, ptr_sortedNode]
      have hgU : g ∈ (node g u (leaf v x m)).ptrs := by simp [ptrs]
      have hrecord : h g = ⟨parent, sibling, some (u.replaceAt L.ptr X).ptr, some v, (h g).subtreeTerminals⟩ := by
        rw [hg, show h₀ g = _ from hst.1]
        have hv : rename L.ptr X.ptr (some v) = some v := rename_of_ne fun he => hvu (he ▸ hLu hLp)
        simp only [relinked, record, leftPtr, rightPtr, ptr_leaf, hv, some_ptr_replaceAt]
      have hlen : (h g).subtreeTerminals.length = width := by
        rw [hg, show h₀ g = _ from hst.1]
        exact Bitset.length_encode ..
      have hne : g ≠ X.ptr := fun he => hout g hgU hgL (he ▸ ptr_mem_ptrs (mem_subtrees_self X))
      have h₁g : h₁ g = h g := hframe g fun hgu' => absurd hgu' hgu
      have ho₁ : (leaf v x m).Stored width h₁ (some g) (some (u.replaceAt L.ptr X).ptr) :=
        hleaf.congr fun y hy => hframe y fun hyu => absurd (List.mem_singleton.1 hy ▸ hyu) hvu
      have howithin : Within width (leaf v x m).subtreeTerminals := by
        refine hw.mono fun y hy => Finset.mem_union_left _
          (Finset.mem_sdiff.2 ⟨Finset.subset_union_right hy, fun hyL => ?_⟩)
        exact Finset.disjoint_left.1 hUv.2.2.1 (subtreeTerminals_subset_of_mem_subtrees hL hyL) hy
      have hgu' : g ∉ (u.replaceAt L.ptr X).ptrs := fun hmem => by
        obtain ⟨D, hD⟩ := exists_ptrs_perm hL
        rcases List.mem_append.1 ((ptrs_swap hUv.1 hn'.2.1 hL hD).subset hmem) with hmem | hmem
        · exact hout g hgU hgL hmem
        · exact hgu (hD.symm.subset (List.mem_append_right _ hmem))
      obtain ⟨h', hrun', hst', hframe'⟩ := recalculate_node hrecord hlen hne hrun
        (ho₁.recalculate hUv.2.1 howithin (Or.inl rfl) f) h₁g h₁g hust ho₁ hgu' fun he => hgv (List.mem_singleton.1 he)
      refine ⟨h', hrun', hst', fun y hy => ?_⟩
      rw [hframe' y fun he => hgL (he ▸ hy (he ▸ hgU)), hframe y fun hyu => hy (by simp [hyu])]
  | @right ls u g v x m hu ih =>
      rw [List.length_append, List.length_singleton] at hfuel
      obtain ⟨fuel, rfl⟩ := Nat.exists_eq_succ_of_ne_zero (show fuel ≠ 0 by omega)
      obtain ⟨f, rfl⟩ := Nat.exists_eq_succ_of_ne_zero (show fuel ≠ 0 by omega)
      have hL := hu.mem_subtrees
      have hLu := ptrs_subset_of_mem_subtrees hL
      have hLp := ptr_mem_ptrs (mem_subtrees_self L)
      obtain ⟨hg, hleaf, hgL, hvu, hgu, hgv⟩ := hR.upper (Or.inr rfl) hst hn hL
      have hn' := hn
      rw [ptrs, List.nodup_cons, List.nodup_append] at hn'
      have hsub : u.subtreeTerminals \ L.subtreeTerminals ⊆
          (node g (leaf v x m) u).subtreeTerminals \ L.subtreeTerminals :=
        Finset.sdiff_subset_sdiff Finset.subset_union_right (Finset.Subset.refl _)
      obtain ⟨h₁, hrun, hust, hframe⟩ := ih hUv.2.1 hn'.2.2.1 (hw.mono (Finset.union_subset_union_left hsub))
        (hd.mono_left hsub) (fun y hy => hout y (by simp [hy])) hst.2.2 (hR.below (Or.inr rfl) hst hn hL)
        (show ls.length < f + 1 by omega)
      -- the node and its terminal
      have hgX : ¬g = L.ptr := fun he => hgL (he ▸ hLp)
      have hvX : L.ptr ∉ (leaf v x m).ptrs := fun hp => hvu (List.mem_singleton.1 hp ▸ hLu hLp)
      have hrep : (node g (leaf v x m) u).replaceAt L.ptr X = sortedNode g (leaf v x m) (u.replaceAt L.ptr X) := by
        rw [replaceAt, if_neg hgX, replaceAt_of_notMem hUv.1 hvX]
      rw [hrep, ptr_sortedNode]
      have hgU : g ∈ (node g (leaf v x m) u).ptrs := by simp [ptrs]
      have hrecord : h g = ⟨parent, sibling, some v, some (u.replaceAt L.ptr X).ptr, (h g).subtreeTerminals⟩ := by
        rw [hg, show h₀ g = _ from hst.1]
        have hv : rename L.ptr X.ptr (some v) = some v := rename_of_ne fun he => hvu (he ▸ hLu hLp)
        simp only [relinked, record, leftPtr, rightPtr, ptr_leaf, hv, some_ptr_replaceAt]
      have hlen : (h g).subtreeTerminals.length = width := by
        rw [hg, show h₀ g = _ from hst.1]
        exact Bitset.length_encode ..
      have hne : g ≠ X.ptr := fun he => hout g hgU hgL (he ▸ ptr_mem_ptrs (mem_subtrees_self X))
      have h₁g : h₁ g = h g := hframe g fun hgu' => absurd hgu' hgu
      have ho₁ : (leaf v x m).Stored width h₁ (some g) (some (u.replaceAt L.ptr X).ptr) :=
        hleaf.congr fun y hy => hframe y fun hyu => absurd (List.mem_singleton.1 hy ▸ hyu) hvu
      have howithin : Within width (leaf v x m).subtreeTerminals := by
        refine hw.mono fun y hy => Finset.mem_union_left _
          (Finset.mem_sdiff.2 ⟨Finset.subset_union_left hy, fun hyL => ?_⟩)
        exact Finset.disjoint_left.1 hUv.2.2.1.symm (subtreeTerminals_subset_of_mem_subtrees hL hyL) hy
      have hgu' : g ∉ (u.replaceAt L.ptr X).ptrs := fun hmem => by
        obtain ⟨D, hD⟩ := exists_ptrs_perm hL
        rcases List.mem_append.1 ((ptrs_swap hUv.2.1 hn'.2.2.1 hL hD).subset hmem) with hmem | hmem
        · exact hout g hgU hgL hmem
        · exact hgu (hD.symm.subset (List.mem_append_right _ hmem))
      obtain ⟨h', hrun', hst', hframe'⟩ := recalculate_node hrecord hlen hne
        (hleaf.recalculate hUv.1 howithin (Or.inl rfl) f) hrun rfl h₁g ho₁ hust
          (fun he => hgv (List.mem_singleton.1 he)) hgu'
      refine ⟨h', hrun', hst', fun y hy => ?_⟩
      rw [hframe' y fun he => hgL (he ▸ hy (he ▸ hgU)), hframe y fun hyu => hy (by simp [hyu])]

section Relink

variable {t V : Tree} {h' : Nodes} {parent sibling : Option Ptr} {b p x : Ptr}

/-- The children of a node and their addresses. -/
theorem apart_of_node (hn : t.ptrs.Nodup) (hnode : node b L V ∈ t.subtrees ∨ node b V L ∈ t.subtrees) :
    b ∉ L.ptrs ∧ V.ptr ∉ L.ptrs ∧ b ∈ t.ptrs ∧ V ∈ t.subtrees ∧ L ∈ t.subtrees ∧ V.ptr ≠ b := by
  rcases hnode with h | h
  · have hn' := nodup_of_mem_subtrees h hn
    obtain ⟨hV, hVL⟩ := (notMem_other hn').2 V (mem_subtrees_self V)
    rw [ptrs, List.nodup_cons, List.mem_append, not_or] at hn'
    exact ⟨hn'.1.1, hVL, ptr_mem_ptrs h, (mem_subtrees_children h).2, (mem_subtrees_children h).1, hV⟩
  · have hn' := nodup_of_mem_subtrees h hn
    obtain ⟨hV, hVL⟩ := (notMem_other hn').1 V (mem_subtrees_self V)
    rw [ptrs, List.nodup_cons, List.mem_append, not_or] at hn'
    exact ⟨hn'.1.2, hVL, ptr_mem_ptrs h, (mem_subtrees_children h).1, (mem_subtrees_children h).2, hV⟩

/-- The records of the children of a node. -/
theorem Stored.of_node (ht : t.Stored width h parent sibling)
    (hnode : node b L V ∈ t.subtrees ∨ node b V L ∈ t.subtrees) :
    h L.ptr = record width (some b) (some V.ptr) L ∧ h V.ptr = record width (some b) (some L.ptr) V ∧
      ((h b).leftChild = some L.ptr ∧ (h b).rightChild = some V.ptr ∨
        (h b).leftChild = some V.ptr ∧ (h b).rightChild = some L.ptr) := by
  rcases hnode with hnode | hnode
  · obtain ⟨hl, hr, hls, hrs⟩ := ht.children hnode
    exact ⟨hls.root, hrs.root, Or.inl ⟨hl, hr⟩⟩
  · obtain ⟨hl, hr, hls, hrs⟩ := ht.children hnode
    exact ⟨hrs.root, hls.root, Or.inr ⟨hl, hr⟩⟩

/-- **What `relink` writes** when `p` takes the place of `L` beside `V` below `b`. -/
theorem Stored.relink (ht : t.Stored width h parent sibling) (hn : t.ptrs.Nodup)
    (hnode : node b L V ∈ t.subtrees ∨ node b V L ∈ t.subtrees) (hh : ∀ y ∈ t.ptrs, y ∉ L.ptrs → h' y = h y)
    (hpV : p ≠ V.ptr) (hpb : p ≠ b) (hx : x ∈ t.ptrs) (hxL : x ∉ L.ptrs) (hxp : x ≠ p) :
    ShortenChainAction.relink h' p b V.ptr x =
      { relinked L.ptr p (h x) with sibling := if x = V.ptr then some p else (h x).sibling } := by
  obtain ⟨hbL, -, hbt, -, -, hVb⟩ := apart_of_node hn hnode
  obtain ⟨hL, hV, hchildren⟩ := ht.of_node hnode
  have hLV : L.ptr ≠ V.ptr := fun he => by
    have := (apart_of_node hn hnode).2.1
    exact this (he ▸ ptr_mem_ptrs (mem_subtrees_self L))
  have hch : (h x).leftChild = some L.ptr ∨ (h x).rightChild = some L.ptr → x = b := fun hc => by
    have := (ht.parent_of_child hx hc).2
    rw [hL] at this
    exact (Option.some.inj this).symm
  rw [ShortenChainAction.relink_apply hpV (Ne.symm hpb), hh x hx hxL, hh b hbt hbL]
  have hleft : (if x = b ∧ (h b).leftChild ≠ some V.ptr then some p else (h x).leftChild) =
      rename L.ptr p (h x).leftChild := by
    unfold rename
    by_cases hxb : x = b
    · rw [hxb]
      rcases hchildren with ⟨hl, -⟩ | ⟨hl, -⟩
      · simp [hl, hLV]
      · simp [hl, hLV.symm]
    · rw [if_neg fun hc => hxb hc.1, if_neg fun hc => hxb (hch (Or.inl hc))]
  have hright : (if x = b ∧ (h b).leftChild = some V.ptr then some p else (h x).rightChild) =
      rename L.ptr p (h x).rightChild := by
    unfold rename
    by_cases hxb : x = b
    · rw [hxb]
      rcases hchildren with ⟨hl, hr⟩ | ⟨hl, hr⟩
      · simp [hl, hr, hLV, hLV.symm]
      · simp [hl, hr]
    · rw [if_neg fun hc => hxb hc.1, if_neg fun hc => hxb (hch (Or.inr hc))]
  rw [hleft, hright, if_neg hxp, if_neg hxp]
  rfl

/-- Only `V` is the sibling of `L`. -/
theorem Stored.sibling_rename (ht : t.Stored width h parent sibling)
    (hnode : node b L V ∈ t.subtrees ∨ node b V L ∈ t.subtrees) (hx : x ∈ t.ptrs) (hroot : x ≠ t.ptr ∨ sibling = none) :
    (if x = V.ptr then some p else (h x).sibling) = rename L.ptr p (h x).sibling := by
  obtain ⟨hL, hV, -⟩ := ht.of_node hnode
  by_cases hxV : x = V.ptr
  · rw [if_pos hxV, hxV, hV]
    exact (rename_self ..).symm
  · rw [if_neg hxV]
    refine (if_neg fun hs => ?_).symm
    rcases ht.sibling_of_sibling hx hs with ⟨hxt, he⟩ | ⟨-, he⟩
    · rcases hroot with hroot | hroot
      · exact hroot hxt
      · rw [hroot] at he
        cases he
    · rw [hL] at he
      exact hxV (Option.some.inj he).symm

/-- **The climb of `undoAction`** above the place where the chain hangs now, and the memory after it. -/
theorem Stored.climb {g : Ptr} {C S : Tree} (ht : t.Stored width h none none) (hn : t.ptrs.Nodup)
    (hnode : node g X C ∈ t.subtrees ∨ node g C X ∈ t.subtrees) (hX : X ≠ t) (hS : S.ptr ∉ t.ptrs)
    (hh : ∀ x ∈ t.ptrs, x ∉ X.ptrs → h' x = relinked X.ptr S.ptr (h x)) {fuel : ℕ} (hfuel : t.ptrs.length ≤ fuel)
    (root : Ptr) (d : List Bitset.Word) :
    ∃ h'', h'.propagate (· ^^^ ·) d false fuel root (some g) = some (t.ptr, h'') ∧ Swapped h h'' t X S d ∧
      ∀ x, (x ∈ t.ptrs → x ∈ X.ptrs) → h'' x = h' x := by
  obtain ⟨hgX, -, hgt, -, hXt, -⟩ := apart_of_node hn hnode
  obtain ⟨hXr, -, -⟩ := ht.of_node hnode
  obtain ⟨P, hP⟩ := exists_pathTo hXt hX
  obtain ⟨hXt', hPmem⟩ := mem_of_mem_pathTo hP
  have hPt : ∀ x ∈ P.map ptr, x ∈ t.ptrs := fun x hx => by
    obtain ⟨u, hu, rfl⟩ := List.mem_map.1 hx
    exact ptr_mem_of_mem_pathTo hP hu
  have hPX : ∀ x ∈ X.ptrs, x ∉ P.map ptr := fun x hx => notMem_pathTo hn hP hx
  have hPh : ∀ x ∈ P.map ptr, h' x = relinked X.ptr S.ptr (h x) := fun x hx =>
    hh x (hPt x hx) fun hxX => hPX x hxX hx
  have hchain := ht.parentChain hP
  rw [hXr] at hchain
  have hclimb : h'.propagate (· ^^^ ·) d false fuel root (some g) =
      some ((P.map ptr).getLastD root, Nodes.sortAll (P.map ptr) (Nodes.addLabels (· ^^^ ·) d (P.map ptr) h')) := by
    refine Nodes.propagate_eq (hchain.congr fun x hx => by rw [hPh x hx]; rfl) (nodup_pathTo hP hn) ?_
      (Or.inr fun x hx => ?_) ?_
    · exact childrenBehind_rename (ht.childrenBehind hP hn) (fun hmem => hS (hPt _ hmem)) fun x hx => by
        rw [hPh x hx]
        exact ⟨rfl, rfl⟩
    · obtain ⟨hl, hr⟩ := ht.inner hP x hx
      rw [hPh x hx]
      unfold relinked rename
      constructor <;> dsimp only <;> split_ifs <;> simp [hl, hr]
    · exact ((nodup_pathTo hP hn).subperm hPt).length_le.trans hfuel
  have hlast : (P.map ptr).getLastD root = t.ptr := by
    obtain ⟨R, hR⟩ := pathTo_last hP
    rw [hR, List.map_append, List.map_singleton, List.getLastD_concat]
  rw [hlast] at hclimb
  set h'' := Nodes.sortAll (P.map ptr) (Nodes.addLabels (· ^^^ ·) d (P.map ptr) h') with hh''
  have hwords : ∀ x,
      (Nodes.addLabels (· ^^^ ·) d (P.map ptr) h' x).subtreeTerminals = (h'' x).subtreeTerminals := fun x => by
    rw [hh'']
    by_cases hx : x ∈ P.map ptr
    · rw [Nodes.sortAll_of_mem hx, Nodes.withSortedChildren_subtreeTerminals]
    · rw [Nodes.sortAll_of_notMem hx]
  have hin : ∀ x ∈ P.map ptr,
      h'' x = Nodes.withSortedChildren h'' (Nodes.withLabels (· ^^^ ·) d (h' x)) := fun x hx => by
    rw [hh'', Nodes.sortAll_of_mem hx, Nodes.addLabels_of_mem hx, ← hh'', Nodes.withSortedChildren_congr
      fun y _ => hwords y]
  have hout : ∀ x, x ∉ P.map ptr → h'' x = h' x := fun x hx => by
    rw [hh'', Nodes.sortAll_of_notMem hx, Nodes.addLabels_of_notMem hx]
  refine ⟨h'', hclimb, ⟨fun q l r hq hlr => ?_, fun s hs hXs hsX => ?_⟩, fun x hx => hout x fun hxP => ?_⟩
  · have hmem : X ∈ (node q l r).subtrees := mem_subtrees_node.2 (Or.inr hlr)
    have hqP : q ∈ P.map ptr := List.mem_map_of_mem (f := ptr) (mem_pathTo hP hn hq hmem (node_ne_of_mem hlr))
    -- the sibling of a node above is not `X`
    have hsib : rename X.ptr S.ptr (h q).sibling = (h q).sibling := if_neg fun he => by
      rcases ht.sibling_of_sibling (hPt q hqP) he with ⟨-, he⟩ | ⟨-, he⟩
      · cases he
      · rw [hXr] at he
        obtain rfl := Option.some.inj he
        have hbehind := ht.childrenBehind hP hn
        obtain ⟨g', a, b, Q, rfl, hab⟩ := pathTo_head hP
        obtain rfl : g = g' := Option.some.inj hchain.1
        refine hbehind.1 _ ?_ hqP
        rcases (ht.of_node hnode).2.2 with ⟨-, hr⟩ | ⟨hl, -⟩
        · exact Or.inr hr
        · exact Or.inl hl
    rw [hin q hqP, hPh q hqP, relinked, hsib]
  · have hsP : s.ptr ∉ P.map ptr := fun hmem => by
      obtain ⟨u, hu, hus⟩ := List.mem_map.1 hmem
      obtain ⟨hut, hXu, -⟩ := hPmem u hu
      exact hXs (eq_of_ptr_eq hn hut hs hus ▸ hXu)
    have hsX' : s.ptr ∉ X.ptrs := fun hmem => by
      rw [← map_ptr_subtrees] at hmem
      obtain ⟨w, hw, hws⟩ := List.mem_map.1 hmem
      exact hsX (eq_of_ptr_eq hn (subtrees_trans hw hXt) hs hws ▸ hw)
    have hno : ¬((h s.ptr).leftChild = some X.ptr ∨ (h s.ptr).rightChild = some X.ptr) := fun hc => by
      have := (ht.parent_of_child (ptr_mem_ptrs hs) hc).2
      rw [hXr] at this
      obtain rfl := Option.some.inj this
      obtain ⟨g', a, b, Q, rfl, hab⟩ := pathTo_head hP
      have hg : s.ptr = g' := Option.some.inj hchain.1
      exact hsP (by rw [hg]; simp)
    have hl : rename X.ptr S.ptr (h s.ptr).leftChild = (h s.ptr).leftChild := if_neg fun hc => hno (Or.inl hc)
    have hr : rename X.ptr S.ptr (h s.ptr).rightChild = (h s.ptr).rightChild := if_neg fun hc => hno (Or.inr hc)
    rw [hout _ hsP, hh _ (ptr_mem_ptrs hs) hsX', relinked, hl, hr]
  · exact hPX x (hx (hPt x hxP)) hxP

/-- **The chain above `X` after the writes of `relink`** and, to its upper end, of others. -/
theorem Stored.rehung {h : Nodes} (hst : U.Stored width h₀ parent sibling) (hn : U.ptrs.Nodup)
    (hnode : node b L V ∈ U.subtrees ∨ node b V L ∈ U.subtrees) {p' s' par sib : Option Ptr}
    (hX : X.Stored width h p' s') (hXn : X.ptrs.Nodup) (hkept : ∀ x ∈ U.ptrs, x ∉ L.ptrs → h x = h₀ x)
    (hout : ∀ x ∈ U.ptrs, x ∉ L.ptrs → x ∉ X.ptrs)
    (htop : h' U.ptr = { ShortenChainAction.relink h X.ptr b V.ptr U.ptr with parent := par, sibling := sib })
    (hrest : ∀ x, x ∈ U.ptrs ∧ x ∉ L.ptrs ∨ x ∈ X.ptrs → x ≠ U.ptr →
      h' x = ShortenChainAction.relink h X.ptr b V.ptr x) :
    Rehung width h₀ h' L U X par sib := by
  obtain ⟨hbL, hVL, hbU, hVU, hLU, -⟩ := apart_of_node hn hnode
  obtain ⟨hL, -, -⟩ := hst.of_node hnode
  have hXp := ptr_mem_ptrs (mem_subtrees_self X)
  have hVp := ptr_mem_ptrs hVU
  have hXV : X.ptr ≠ V.ptr := fun he => hout _ hVp hVL (he ▸ hXp)
  have hXb : X.ptr ≠ b := fun he => hout _ hbU hbL (he ▸ hXp)
  have hne : U ≠ L := by
    rintro rfl
    exact hbL hbU
  have hUL := ptr_notMem_of_ne hn hLU hne
  have hUp := ptr_mem_ptrs (mem_subtrees_self U)
  refine ⟨fun x hx hxL hxU => ?_, fun _ => ?_, fun _ => ?_, fun he => absurd he hne⟩
  · have hxX : x ≠ X.ptr := fun he => hout x hx hxL (he ▸ hXp)
    rw [hrest x (Or.inl ⟨hx, hxL⟩) hxU, hst.relink hn hnode hkept hXV hXb hx hxL hxX,
      hst.sibling_rename hnode hx (Or.inl hxU)]
    rfl
  · have hUX : U.ptr ≠ X.ptr := fun he => hout _ hUp hUL (he ▸ hXp)
    rw [htop, hst.relink hn hnode hkept hXV hXb hUp hUL hUX]
  · have hXU : ∀ x ∈ X.ptrs, x ≠ U.ptr := fun x hx he => hout _ hUp hUL (he ▸ hx)
    rw [hL]
    refine hX.move hXn ?_ fun x hx hxX => ?_
    · rw [hrest _ (Or.inr hXp) (hXU _ hXp), ShortenChainAction.relink_apply hXV (Ne.symm hXb)]
      simp [hXV, hXb, record]
    · have hxV : x ≠ V.ptr := fun he => hout _ hVp hVL (he ▸ hx)
      have hxb : x ≠ b := fun he => hout _ hbU hbL (he ▸ hx)
      rw [hrest x (Or.inr hx) (hXU x hx), ShortenChainAction.relink_apply hXV (Ne.symm hXb)]
      simp [hxX, hxV, hxb]

end Relink

/-- A chain without terminals stays where it is. -/
theorem Hung.eq_of_nil (hH : Hung L ls U) (hls : ls = []) : U = L := by
  cases hH with
  | nil => rfl
  | left => simp at hls
  | right => simp at hls

/-- Where the lowest of the terminals hangs. -/
theorem Hung.exists_bottom (hH : Hung L ls U) (hls : ls ≠ []) :
    ∃ b v x m, node b L (leaf v x m) ∈ U.subtrees ∨ node b (leaf v x m) L ∈ U.subtrees := by
  induction hH with
  | nil => exact absurd rfl hls
  | @left ls u g v x m hu ih =>
      by_cases hls : ls = []
      · obtain rfl := hu.eq_of_nil hls
        exact ⟨g, v, x, m, Or.inl (mem_subtrees_self _)⟩
      · obtain ⟨b, v', x', m', h⟩ := ih hls
        exact ⟨b, v', x', m', h.imp (fun h => mem_subtrees_node.2 (Or.inr (Or.inl h))) fun h =>
          mem_subtrees_node.2 (Or.inr (Or.inl h))⟩
  | @right ls u g v x m hu ih =>
      by_cases hls : ls = []
      · obtain rfl := hu.eq_of_nil hls
        exact ⟨g, v, x, m, Or.inr (mem_subtrees_self _)⟩
      · obtain ⟨b, v', x', m', h⟩ := ih hls
        exact ⟨b, v', x', m', h.imp (fun h => mem_subtrees_node.2 (Or.inr (Or.inr h))) fun h =>
          mem_subtrees_node.2 (Or.inr (Or.inr h))⟩

/-- Each terminal of the chain brings a node of its own. -/
theorem Hung.length_ptrs (hH : Hung L ls U) : U.ptrs.length = 2 * ls.length + L.ptrs.length := by
  induction hH with
  | nil => simp
  | left g v x m _ ih =>
      simp only [ptrs, List.length_cons, List.length_append, ih, List.length_nil]
      omega
  | right g v x m _ ih =>
      simp only [ptrs, List.length_cons, List.length_append, ih, List.length_nil]
      omega

end Tree

namespace Graph.ShortenChainAction

/-- **What the memory `h` keeps of a chain** that was taken out of the memory `h₀`: the nodes
that hung above `L` in `U` are as they were, and the action has the entries of their labels. -/
structure Shelved (width : ℕ) (h₀ h : Nodes) (a : ShortenChainAction) (L U : Tree) (ls : List Label) : Prop where
  hung : Tree.Hung L ls U
  ne : ls ≠ []
  valid : U.Valid
  nodup : U.ptrs.Nodup
  within : Within width U.subtreeTerminals
  stored : ∃ parent sibling, U.Stored width h₀ parent sibling
  kept : ∀ x ∈ U.ptrs, x ∉ L.ptrs → h x = h₀ x
  upperParent : a.upperParent = U.ptr
  lowerUncle : a.lowerUncle = (h₀ L.ptr).sibling
  bitmask : a.bitmaskReduceSubtreeTerminals = encode width (U.subtreeTerminals \ L.subtreeTerminals)
  labels : ∀ x q, (x, q) ∈ a.reducedLabelToTerminal ↔
    ∃ l m, Tree.leaf q l m ∈ U.subtrees ∧ q ∉ L.ptrs ∧ x ∈ insert l m
  terminals : ∀ q x, (q, x) ∈ a.reducedTerminalToLabel ↔ ∃ m, Tree.leaf q x m ∈ U.subtrees ∧ q ∉ L.ptrs

/-- The terminal `lowerUncle`, and the node where the chain begins. -/
theorem Shelved.exists_bottom {width : ℕ} {h₀ h : Nodes} {a : ShortenChainAction} {L U : Tree} {ls : List Label}
    (hA : a.Shelved width h₀ h L U ls) : ∃ b V, (Tree.node b L V ∈ U.subtrees ∨ Tree.node b V L ∈ U.subtrees) ∧
      a.lowerUncle = some V.ptr ∧ (h V.ptr).parent = some b := by
  obtain ⟨b, v, x, m, hnode⟩ := hA.hung.exists_bottom hA.ne
  obtain ⟨_, _, hst⟩ := hA.stored
  obtain ⟨hL, hV, -⟩ := hst.of_node hnode
  obtain ⟨-, hVL, -, hVU, -, -⟩ := Tree.apart_of_node hA.nodup hnode
  refine ⟨b, Tree.leaf v x m, hnode, ?_, ?_⟩
  · rw [hA.lowerUncle, hL]
    rfl
  · rw [hA.kept _ (Tree.ptr_mem_ptrs hVU) hVL, hV]
    rfl

end Graph.ShortenChainAction

namespace Forest

section Unshelve

open ShortenChainAction (undoAction hangBack hangRoot relink)

variable {width : ℕ} {F : Forest} {s : Store} {h₀ : Nodes} {a : ShortenChainAction} {L U X : Tree} {ls : List Label}

/-- **A forest that can take the chain back**, above its subtree `X`: it has none of the nodes and
none of the labels of the chain. -/
structure Receives (width : ℕ) (s : Store) (F : Forest) (h₀ : Nodes) (a : ShortenChainAction) (L U X : Tree)
    (ls : List Label) : Prop where
  wellFormed : F.WellFormed width s
  shelved : a.Shelved width h₀ s.nodes L U ls
  mem : X ∈ F.subtrees
  fresh : ∀ x ∈ U.ptrs, x ∉ L.ptrs → x ∉ F.ptrs
  disjoint : ∀ t ∈ F, Disjoint t.subtreeTerminals (U.subtreeTerminals \ L.subtreeTerminals)

/-- The chain above `X`: its labels. -/
theorem Receives.labels (hR : Receives width s F h₀ a L U X ls) : (U.replaceAt L.ptr X).Valid ∧
    (U.replaceAt L.ptr X).subtreeTerminals = (U.subtreeTerminals \ L.subtreeTerminals) ∪ X.subtreeTerminals := by
  obtain ⟨t, ht, hXt⟩ := mem_subtrees.1 hR.mem
  exact Tree.swap_spec hR.shelved.valid hR.shelved.nodup hR.shelved.hung.mem_subtrees
    ((hR.wellFormed.valid.tree t ht).of_mem_subtrees hXt)
    ((hR.disjoint t ht).symm.mono_right (Tree.subtreeTerminals_subset_of_mem_subtrees hXt))

/-- The chain above `X`: its addresses. -/
theorem Receives.ptrs (hR : Receives width s F h₀ a L U X ls) : (U.replaceAt L.ptr X).ptrs.Nodup ∧
    ∀ x, x ∈ (U.replaceAt L.ptr X).ptrs ↔ x ∈ X.ptrs ∨ x ∈ U.ptrs ∧ x ∉ L.ptrs := by
  have hL := hR.shelved.hung.mem_subtrees
  obtain ⟨D, hD⟩ := Tree.exists_ptrs_perm hL
  have hn := hD.nodup_iff.1 hR.shelved.nodup
  rw [List.nodup_append] at hn
  have hDmem : ∀ x, x ∈ D ↔ x ∈ U.ptrs ∧ x ∉ L.ptrs := fun x => by
    rw [hD.mem_iff, List.mem_append]
    exact ⟨fun h => ⟨Or.inr h, fun hx => hn.2.2 x hx x h rfl⟩, fun h => h.1.resolve_left h.2⟩
  have hperm := Tree.ptrs_swap (S := X) hR.shelved.valid hR.shelved.nodup hL hD
  obtain ⟨t, ht, hXt⟩ := mem_subtrees.1 hR.mem
  obtain ⟨A, B, rfl⟩ := List.append_of_mem ht
  have hXn := Tree.nodup_of_mem_subtrees hXt (notMem_of_split hR.wellFormed.valid.nodup).1
  refine ⟨hperm.nodup_iff.2 (List.nodup_append.2 ⟨hXn, hn.2.1, ?_⟩), fun x => ?_⟩
  · rintro x hx y hy rfl
    obtain ⟨hxU, hxL⟩ := (hDmem x).1 hy
    exact hR.fresh x hxU hxL (List.mem_flatMap.2 ⟨t, ht, Tree.ptrs_subset_of_mem_subtrees hXt hx⟩)
  · rw [hperm.mem_iff, List.mem_append, hDmem]

/-- The upper end of the chain. -/
theorem Receives.ptr (hR : Receives width s F h₀ a L U X ls) : (U.replaceAt L.ptr X).ptr = U.ptr := by
  have h := Tree.some_ptr_replaceAt L.ptr X U
  have hne : U.ptr ≠ L.ptr := fun he => hR.shelved.hung.ne hR.shelved.ne (Tree.eq_of_ptr_eq hR.shelved.nodup
    hR.shelved.hung.mem_subtrees (Tree.mem_subtrees_self U) he.symm)
  rw [Tree.rename_of_ne hne] at h
  exact Option.some.inj h

/-- The other labels of the tree are not in the chain above `X`. -/
theorem Receives.apart (hR : Receives width s F h₀ a L U X ls) {t : Tree} (ht : t ∈ F) :
    Disjoint (t.subtreeTerminals \ X.subtreeTerminals) (U.replaceAt L.ptr X).subtreeTerminals := by
  rw [hR.labels.2, Finset.disjoint_union_right]
  exact ⟨(hR.disjoint t ht).mono_left Finset.sdiff_subset, Finset.sdiff_disjoint⟩

/-- The labels of the chain above `X` fit into the words. -/
theorem Receives.within (hR : Receives width s F h₀ a L U X ls) :
    Within width (U.replaceAt L.ptr X).subtreeTerminals := by
  obtain ⟨t, ht, hXt⟩ := mem_subtrees.1 hR.mem
  rw [hR.labels.2]
  intro x hx
  rcases Finset.mem_union.1 hx with hx | hx
  · exact hR.shelved.within x (Finset.sdiff_subset hx)
  · exact hR.wellFormed.within t ht x (Tree.subtreeTerminals_subset_of_mem_subtrees hXt hx)

/-- **The forest with the chain in it.** -/
theorem Receives.valid (hR : Receives width s F h₀ a L U X ls) :
    (F.replaceAt X.ptr (U.replaceAt L.ptr X)).Valid ∧
      ∀ u ∈ F.replaceAt X.ptr (U.replaceAt L.ptr X), Within width u.subtreeTerminals := by
  refine Valid.swap hR.wellFormed.valid hR.mem hR.wellFormed.within hR.labels.1 hR.within (fun t ht => hR.apart ht)
    hR.ptrs.1 fun x hx hxF => ?_
  rcases (hR.ptrs.2 x).1 hx with hx | ⟨hxU, hxL⟩
  · exact hx
  · exact absurd hxF (hR.fresh x hxU hxL)

/-- **The memory once the chain hangs in the tree `t` again**, before its words are computed anew. -/
structure Rehangs (width : ℕ) (s : Store) (h₀ h : Nodes) (a : ShortenChainAction) (L U X t : Tree) (fuel : ℕ)
    (parent sibling : Option Ptr) : Prop where
  rehung : Tree.Rehung width h₀ h L U X parent sibling
  parent_eq : (h U.ptr).parent = parent
  frame : ∀ x, x ∉ t.ptrs → (x ∈ U.ptrs → x ∈ L.ptrs) → h x = s.nodes x
  climb : ∀ h', (U.replaceAt L.ptr X).Stored width h' parent sibling → (∀ x, (x ∈ U.ptrs → x ∈ L.ptrs) → h' x = h x) →
    ∃ r h'', h'.propagate (· ^^^ ·) a.bitmaskReduceSubtreeTerminals false fuel a.upperParent parent = some (r, h'') ∧
      (t.replaceAt X.ptr (U.replaceAt L.ptr X)).Stored width h'' none none ∧ ∀ x ∉ t.ptrs, h'' x = h' x

/-- **The chain hangs above a whole tree.** -/
theorem Receives.exists_hangRoot (hR : Receives width s F h₀ a L U X ls) (hX : X ∈ F) {n : Ptr}
    (hn : s.labelToTerminal a.lower = some n) (hhook : X.ptr = n ∨ (s.nodes n).parent = some X.ptr) {v : Ptr}
    (hv : a.lowerUncle = some v) (fuel : ℕ) :
    ∃ h, hangBack a v s = some (h, s.roots.erase X.ptr, (X.replaceAt X.ptr (U.replaceAt L.ptr X)).ptr) ∧
      Rehangs width s h₀ h a L U X X fuel none none := by
  obtain ⟨b, V, hnode, hV, hb⟩ := hR.shelved.exists_bottom
  obtain rfl := Option.some.inj (hv.symm.trans hV)
  obtain ⟨_, _, hst⟩ := hR.shelved.stored
  have hXst := hR.wellFormed.stored.trees X hX
  have hXroots : X.ptr ∈ s.roots := by
    rw [hR.wellFormed.stored.roots]
    exact List.mem_map_of_mem hX
  have hXpar : (s.nodes X.ptr).parent = none := by
    rw [hXst.root]
    rfl
  obtain ⟨hbL, hVL, hbU, hVU, hLU, -⟩ := Tree.apart_of_node hR.shelved.nodup hnode
  have hUL := Tree.ptr_notMem_of_ne hR.shelved.nodup hLU (hR.shelved.hung.ne hR.shelved.ne).symm
  have hUp := Tree.ptr_mem_ptrs (Tree.mem_subtrees_self U)
  have hXF : ∀ x ∈ X.ptrs, x ∈ F.ptrs := fun x hx => List.mem_flatMap.2 ⟨X, hX, hx⟩
  have hXn := (List.nodup_flatMap.1 hR.wellFormed.valid.nodup).1 X hX
  have hXp := Tree.ptr_mem_ptrs (Tree.mem_subtrees_self X)
  have hout : ∀ x ∈ U.ptrs, x ∉ L.ptrs → x ∉ X.ptrs := fun x hx hxL hxX => hR.fresh x hx hxL (hXF x hxX)
  set h := hangRoot s.nodes X.ptr b V.ptr U.ptr with hh
  have hrest : ∀ x, x ≠ U.ptr → h x = relink s.nodes X.ptr b V.ptr x := fun x hx => by
    rw [hh, hangRoot, Nodes.setSibling, Nodes.modify_of_ne _ _ hx, Nodes.setParent, Nodes.modify_of_ne _ _ hx]
  have htop : h U.ptr = { relink s.nodes X.ptr b V.ptr U.ptr with parent := none, sibling := none } := by
    rw [hh, hangRoot, Nodes.setSibling, Nodes.modify_self, Nodes.setParent, Nodes.modify_self]
  refine ⟨h, ?_, ?_, ?_, fun x hx hxU => ?_, fun h' hS hframe => ?_⟩
  · rw [Tree.replaceAt_self, hR.ptr, hangBack]
    rcases hhook with rfl | hpar
    · simp only [hn, hb, hXpar, if_pos hXroots, Option.bind_eq_bind, Option.bind_some, hR.shelved.upperParent, ← hh]
    · simp only [hn, hb, hpar, hXpar, if_pos hXroots, Option.bind_eq_bind, Option.bind_some, hR.shelved.upperParent,
        ← hh]
  · exact hst.rehung hR.shelved.nodup hnode hXst hXn hR.shelved.kept hout htop fun x _ hx => hrest x hx
  · rw [htop]
  · have hxU' : x ≠ U.ptr := fun he => hUL (he ▸ hxU (he ▸ hUp))
    have hxV : x ≠ V.ptr := fun he => hVL (he ▸ hxU (he ▸ Tree.ptr_mem_ptrs hVU))
    have hxb : x ≠ b := fun he => hbL (he ▸ hxU (he ▸ hbU))
    have hxX : x ≠ X.ptr := fun he => hx (he ▸ hXp)
    have hXV : X.ptr ≠ V.ptr := fun he => hout _ (Tree.ptr_mem_ptrs hVU) hVL (he ▸ hXp)
    have hXb : b ≠ X.ptr := fun he => hout _ hbU hbL (he ▸ hXp)
    rw [hrest x hxU', ShortenChainAction.relink_apply hXV hXb]
    simp [hxV, hxb, hxX]
  · refine ⟨a.upperParent, h', ?_, ?_, fun _ _ => rfl⟩
    · cases fuel <;> rfl
    · rwa [Tree.replaceAt_self]

/-- `rootOf` finds the tree of a node. -/
theorem WellFormed.find_root (hF : F.WellFormed width s) {t c : Tree} (ht : t ∈ F) (hc : c ∈ t.subtrees) {h : Nodes}
    (hwords : ∀ x, (h x).subtreeTerminals = (s.nodes x).subtreeTerminals) :
    (s.roots.find? fun r => Bitset.hasSubset (h c.ptr).subtreeTerminals (h r).subtreeTerminals) = some t.ptr := by
  obtain ⟨A, B, rfl⟩ := List.append_of_mem ht
  obtain ⟨_, _, hcst⟩ := (hF.stored.trees t ht).of_mem hc
  have hct := Tree.subtreeTerminals_subset_of_mem_subtrees hc
  have hroots : s.roots = A.map Tree.ptr ++ t.ptr :: B.map Tree.ptr := by
    rw [hF.stored.roots, List.map_append, List.map_cons]
  rw [hroots, List.find?_append, List.find?_eq_none.2 fun r hr => ?_, Option.none_or]
  · refine List.find?_cons_of_pos ?_
    rw [hwords, hwords, hcst.words, (hF.stored.trees t ht).words]
    exact Bitset.hasSubset_encode hct
  · obtain ⟨u, hu, rfl⟩ := List.mem_map.1 hr
    intro hsubset
    have hxc := Tree.least_mem c
    obtain ⟨hpos, hle⟩ := hF.within t ht _ (hct hxc)
    rw [hwords, hwords, hcst.words, (hF.stored.trees u (List.mem_append_left _ hu)).words] at hsubset
    have hmem := Bitset.mem_of_hasSubset (x := c.least) hsubset
      (by rw [Bitset.length_encode, Bitset.length_encode]) (by rw [Bitset.mem_encode hpos hle]; simp [hxc])
    rw [Bitset.mem_encode hpos hle] at hmem
    have hdis := (List.pairwise_append.1 hF.valid.disjoint).2.2 u hu t (List.mem_cons_self ..)
    exact Finset.disjoint_left.1 hdis (of_decide_eq_true hmem) (hct hxc)

/-- **The chain hangs below another node.** -/
theorem Receives.exists_hangInner (hR : Receives width s F h₀ a L U X ls) {t : Tree} (ht : t ∈ F) (hXt : X ∈ t.subtrees)
    (hne : X ≠ t) {c : Tree} (hn : s.labelToTerminal a.lower = some c.ptr) (hcX : c ∈ X.subtrees)
    (hpar : (s.nodes c.ptr).parent = some X.ptr) {v : Ptr} (hv : a.lowerUncle = some v) {fuel : ℕ}
    (hfuel : F.ptrs.length ≤ fuel) :
    ∃ h parent sibling, hangBack a v s = some (h, s.roots.erase t.ptr, (t.replaceAt X.ptr (U.replaceAt L.ptr X)).ptr) ∧
      Rehangs width s h₀ h a L U X t fuel parent sibling := by
  obtain ⟨b, V, hnode, hV, hb⟩ := hR.shelved.exists_bottom
  obtain rfl := Option.some.inj (hv.symm.trans hV)
  obtain ⟨_, _, hst⟩ := hR.shelved.stored
  have htst := hR.wellFormed.stored.trees t ht
  obtain ⟨hbL, hVL, hbU, hVU, hLU, -⟩ := Tree.apart_of_node hR.shelved.nodup hnode
  have hUL := Tree.ptr_notMem_of_ne hR.shelved.nodup hLU (hR.shelved.hung.ne hR.shelved.ne).symm
  have hUp := Tree.ptr_mem_ptrs (Tree.mem_subtrees_self U)
  have hVp := Tree.ptr_mem_ptrs hVU
  have htF : ∀ x ∈ t.ptrs, x ∈ F.ptrs := fun x hx => List.mem_flatMap.2 ⟨t, ht, hx⟩
  have htn := (List.nodup_flatMap.1 hR.wellFormed.valid.nodup).1 t ht
  have hXn := Tree.nodup_of_mem_subtrees hXt htn
  have hXp := Tree.ptr_mem_ptrs (Tree.mem_subtrees_self X)
  have hXtp := Tree.ptrs_subset_of_mem_subtrees hXt
  have hfresh : ∀ x ∈ U.ptrs, x ∉ L.ptrs → x ∉ t.ptrs := fun x hx hxL hxt => hR.fresh x hx hxL (htF x hxt)
  have hout : ∀ x ∈ U.ptrs, x ∉ L.ptrs → x ∉ X.ptrs := fun x hx hxL hxX => hfresh x hx hxL (hXtp hxX)
  -- the place of `X`
  obtain ⟨g, C, hgC⟩ : ∃ g C, Tree.node g X C ∈ t.subtrees ∨ Tree.node g C X ∈ t.subtrees := by
    obtain ⟨P, hP⟩ := Tree.exists_pathTo hXt hne
    obtain ⟨g, l, r, Q, rfl, hlr⟩ := Tree.pathTo_head hP
    have hg := ((Tree.mem_of_mem_pathTo hP).2 _ (List.mem_cons_self ..)).1
    rcases hlr with rfl | rfl
    · exact ⟨g, r, Or.inl hg⟩
    · exact ⟨g, l, Or.inr hg⟩
  obtain ⟨hgX, hCX, hgt, hCt, -, hCg⟩ := Tree.apart_of_node htn hgC
  obtain ⟨hXrec, -, -⟩ := htst.of_node hgC
  have hCtp := Tree.ptr_mem_ptrs hCt
  have hXV : X.ptr ≠ V.ptr := fun he => hout _ hVp hVL (he ▸ hXp)
  have hXb : b ≠ X.ptr := fun he => hout _ hbU hbL (he ▸ hXp)
  have hUC : U.ptr ≠ C.ptr := fun he => hfresh _ hUp hUL (he ▸ hCtp)
  have hUg : g ≠ U.ptr := fun he => hfresh _ hUp hUL (he ▸ hgt)
  set h₁ := relink s.nodes X.ptr b V.ptr with hh₁
  set h := relink h₁ U.ptr g C.ptr with hh
  have hrest : ∀ x, x ≠ U.ptr → x ≠ C.ptr → x ≠ g → h x = h₁ x := fun x hxU hxC hxg => by
    rw [hh, ShortenChainAction.relink_apply hUC hUg]
    simp [hxU, hxC, hxg]
  have hout₁ : ∀ x, x ≠ X.ptr → x ≠ V.ptr → x ≠ b → h₁ x = s.nodes x := fun x hxX hxV hxb => by
    rw [hh₁, ShortenChainAction.relink_apply hXV hXb]
    simp [hxX, hxV, hxb]
  have htop : h U.ptr = { h₁ U.ptr with parent := some g, sibling := some C.ptr } := by
    rw [hh, ShortenChainAction.relink_apply hUC hUg]
    simp [hUC, Ne.symm hUg]
  have hwords : ∀ x, (h x).subtreeTerminals = (s.nodes x).subtreeTerminals := fun x => by
    rw [hh, ShortenChainAction.relink_apply hUC hUg, hh₁, ShortenChainAction.relink_apply hXV hXb]
  have hptr : (t.replaceAt X.ptr (U.replaceAt L.ptr X)).ptr = t.ptr := by
    have h := Tree.some_ptr_replaceAt X.ptr (U.replaceAt L.ptr X) t
    rw [Tree.rename_of_ne fun he => hne (Tree.eq_of_ptr_eq htn hXt (Tree.mem_subtrees_self t) he.symm)] at h
    exact Option.some.inj h
  refine ⟨h, some g, some C.ptr, ?_, ?_, ?_, fun x hx hxU => ?_, fun h' hS hframe => ?_⟩
  · rw [hangBack]
    have hroot := hR.wellFormed.find_root ht (Tree.subtrees_trans hcX hXt) hwords
    simp only [hn, hb, hpar, hXrec, Tree.record, Option.bind_eq_bind, Option.bind_some, hR.shelved.upperParent, ← hh₁,
      ← hh, hroot, hptr]
  · obtain ⟨_, _, hXst⟩ := htst.of_mem hXt
    refine hst.rehung hR.shelved.nodup hnode hXst hXn hR.shelved.kept hout htop fun x hx hxU => hrest x hxU ?_ ?_
    · rintro rfl
      rcases hx with ⟨hx, hxL⟩ | hx
      · exact hfresh _ hx hxL hCtp
      · exact hCX hx
    · rintro rfl
      rcases hx with ⟨hx, hxL⟩ | hx
      · exact hfresh _ hx hxL hgt
      · exact hgX hx
  · rw [htop]
  · rw [hrest x (fun he => hUL (he ▸ hxU (he ▸ hUp))) (fun he => hx (he ▸ hCtp)) fun he => hx (he ▸ hgt)]
    exact hout₁ x (fun he => hx (he ▸ hXtp hXp)) (fun he => hVL (he ▸ hxU (he ▸ hVp)))
      fun he => hbL (he ▸ hxU (he ▸ hbU))
  · have hoff : ∀ x ∈ t.ptrs, x ∉ X.ptrs → h₁ x = s.nodes x := fun x hx hxX =>
      hout₁ x (fun he => hxX (he ▸ hXp)) (fun he => hfresh _ hVp hVL (he ▸ hx)) fun he => hfresh _ hbU hbL (he ▸ hx)
    have hplace : ∀ x ∈ t.ptrs, x ∉ X.ptrs → h' x = Tree.relinked X.ptr (U.replaceAt L.ptr X).ptr (s.nodes x) :=
      fun x hx hxX => by
        have hxU : x ≠ U.ptr := fun he => hfresh _ hUp hUL (he ▸ hx)
        rw [hframe x fun hxU => by_contra fun hxL => hfresh x hxU hxL hx, hh,
          htst.relink htn hgC hoff hUC hUg.symm hx hxX hxU, htst.sibling_rename hgC hx (Or.inr rfl), hR.ptr]
        rfl
    have hlen : t.ptrs.length ≤ fuel := by
      refine le_trans ?_ hfuel
      obtain ⟨A, B, rfl⟩ := List.append_of_mem ht
      simp only [Forest.ptrs, List.flatMap_append, List.flatMap_cons, List.length_append]
      omega
    obtain ⟨h'', hrun, hsw, hkeep⟩ := htst.climb htn hgC hne (fun hmem => hfresh _ hUp hUL (hR.ptr ▸ hmem)) hplace hlen
      a.upperParent a.bitmaskReduceSubtreeTerminals
    refine ⟨t.ptr, h'', hrun, ?_, fun x hx => hkeep x fun hxt => absurd hxt hx⟩
    have hbits : symmDiff X.subtreeTerminals (U.replaceAt L.ptr X).subtreeTerminals =
        U.subtreeTerminals \ L.subtreeTerminals := by
      have hd := (hR.disjoint t ht).symm.mono_right (Tree.subtreeTerminals_subset_of_mem_subtrees hXt)
      rw [hR.labels.2, symmDiff_of_le Finset.subset_union_right, Finset.union_sdiff_cancel_right hd]
    rw [hR.shelved.bitmask, ← hbits] at hsw
    refine Tree.Stored.swap (hR.wellFormed.valid.tree t ht) htn hXt hR.labels.1 (hR.apart ht) ?_ htst ?_ hsw
    · intro x hx
      rcases Finset.mem_union.1 hx with hx | hx
      · exact hR.wellFormed.within t ht x (Finset.sdiff_subset hx)
      · exact hR.within x hx
    · rw [hXrec]
      refine hS.congr fun x hx => hkeep x fun hxt => ?_
      rcases (hR.ptrs.2 x).1 hx with hx | ⟨hxU, hxL⟩
      · exact hx
      · exact absurd hxt (hfresh x hxU hxL)

/-- The terminals of the forest with the chain in it. -/
theorem Receives.leaf_mem (hR : Receives width s F h₀ a L U X ls) {q : Ptr} {x : Label} {m : Finset Label} :
    Tree.leaf q x m ∈ (F.replaceAt X.ptr (U.replaceAt L.ptr X)).subtrees ↔
      Tree.leaf q x m ∈ F.subtrees ∨ Tree.leaf q x m ∈ U.subtrees ∧ q ∉ L.ptrs := by
  obtain ⟨t, ht, hXt⟩ := mem_subtrees.1 hR.mem
  rw [leaf_mem_swap hR.wellFormed.valid hR.mem,
    Tree.leaf_mem_swap hR.shelved.valid hR.shelved.nodup hR.shelved.hung.mem_subtrees]
  constructor
  · rintro ((h | h) | h)
    · exact Or.inl (mem_subtrees.2 ⟨t, ht, Tree.subtrees_trans h hXt⟩)
    · exact Or.inr h
    · exact Or.inl h.1
  · rintro (h | h)
    · by_cases hq : q ∈ X.ptrs
      · rw [← Tree.map_ptr_subtrees] at hq
        obtain ⟨w, hw, hwq⟩ := List.mem_map.1 hq
        obtain rfl := eq_of_ptr_eq hR.wellFormed.valid.nodup (mem_subtrees.2 ⟨t, ht, Tree.subtrees_trans hw hXt⟩) h hwq
        exact Or.inl (Or.inl hw)
      · exact Or.inr ⟨h, hq⟩
    · exact Or.inl (Or.inr h)

/-- The labels of the chain are not in the forest. -/
theorem Receives.label_notMem (hR : Receives width s F h₀ a L U X ls) {q : Ptr} {l x : Label} {m : Finset Label}
    (hq : Tree.leaf q l m ∈ U.subtrees) (hqL : q ∉ L.ptrs) (hx : x ∈ insert l m) {c : Tree} (hc : c ∈ F.subtrees) :
    x ∉ c.subtreeTerminals := fun hxc => by
  obtain ⟨t, ht, hct⟩ := mem_subtrees.1 hc
  refine Finset.disjoint_left.1 (hR.disjoint t ht) (Tree.subtreeTerminals_subset_of_mem_subtrees hct hxc)
    (Finset.mem_sdiff.2 ⟨Tree.subtreeTerminals_subset_of_mem_subtrees hq hx, fun hxL => hqL ?_⟩)
  rcases hR.shelved.valid.nested hq hR.shelved.hung.mem_subtrees hx hxL with h | h
  · exact Tree.ptr_mem_ptrs h
  · rw [List.mem_singleton.1 h]
    exact Tree.ptr_mem_ptrs (Tree.mem_subtrees_self _)

/-- **The labels have their entries again.** -/
theorem Receives.indexed (hR : Receives width s F h₀ a L U X ls) (hI : F.Indexed s) {s' : Store}
    (hl : s'.labelToTerminal = ShortenChainAction.insertAll a.reducedLabelToTerminal s.labelToTerminal)
    (ht : s'.terminalToLabel = ShortenChainAction.insertAll a.reducedTerminalToLabel s.terminalToLabel) :
    (F.replaceAt X.ptr (U.replaceAt L.ptr X)).Indexed s' := by
  set G := F.replaceAt X.ptr (U.replaceAt L.ptr X) with hGdef
  have hG : G.Indexed (G.toStore width) := toStore_indexed hR.valid.1
  have hlabels := @ShortenChainAction.insertAll_apply _ _ _ a.reducedLabelToTerminal s.labelToTerminal
    (G.toStore width).labelToTerminal (fun e he => ?_) (fun e he => Or.inl ?_)
  have hterminals := @ShortenChainAction.insertAll_apply _ _ _ a.reducedTerminalToLabel s.terminalToLabel
    (G.toStore width).terminalToLabel (fun e he => ?_) (fun e he => Or.inl ?_)
  · refine ⟨fun p x => ?_, fun p x => ?_⟩
    · rw [ht, hterminals]
      split_ifs with hp
      · exact hG.terminalToLabel p x
      · rw [hI.terminalToLabel]
        refine exists_congr fun m => ⟨fun h => hR.leaf_mem.2 (Or.inl h), fun h => (hR.leaf_mem.1 h).resolve_right
          fun h => hp ?_⟩
        exact List.mem_map.2 ⟨(p, x), (hR.shelved.terminals p x).2 ⟨m, h⟩, rfl⟩
    · rw [hl, hlabels]
      split_ifs with hx
      · exact hG.labelToTerminal p x
      · rw [hI.labelToTerminal]
        refine exists_congr fun l => exists_congr fun m => and_congr_left fun hxm =>
          ⟨fun h => hR.leaf_mem.2 (Or.inl h), fun h => (hR.leaf_mem.1 h).resolve_right fun h => hx ?_⟩
        exact List.mem_map.2 ⟨(x, p), (hR.shelved.labels x p).2 ⟨l, m, h.1, h.2, hxm⟩, rfl⟩
  · obtain ⟨m, h⟩ := (hR.shelved.terminals e.1 e.2).1 he
    exact (hG.terminalToLabel _ _).2 ⟨m, hR.leaf_mem.2 (Or.inr h)⟩
  · obtain ⟨m, h, hL⟩ := (hR.shelved.terminals e.1 e.2).1 he
    by_contra hne
    obtain ⟨y, hy⟩ := Option.ne_none_iff_exists'.1 hne
    obtain ⟨k, hk⟩ := (hI.terminalToLabel _ _).1 hy
    have hkF := List.mem_map_of_mem (f := Tree.ptr) hk
    rw [map_ptr_subtrees] at hkF
    exact hR.fresh _ (Tree.ptr_mem_ptrs h) hL hkF
  · obtain ⟨l, m, h, hL, hx⟩ := (hR.shelved.labels e.1 e.2).1 he
    exact (hG.labelToTerminal _ _).2 ⟨l, m, hR.leaf_mem.2 (Or.inr ⟨h, hL⟩), hx⟩
  · obtain ⟨l, m, h, hL, hx⟩ := (hR.shelved.labels e.1 e.2).1 he
    by_contra hne
    obtain ⟨p, hp⟩ := Option.ne_none_iff_exists'.1 hne
    obtain ⟨l', m', hk, hx'⟩ := (hI.labelToTerminal _ _).1 hp
    exact hR.label_notMem h hL hx hk hx'

/-- **The chain is put back**: the action succeeds in every forest that can take the chain, which is
then above the terminal of `lower` that stands alone, or above its parent. -/
theorem Receives.exists_undoAction (hR : Receives width s F h₀ a L U X ls) (hI : F.Indexed s) {n : Ptr}
    (hlower : s.labelToTerminal a.lower = some n) (hhook : X ∈ F ∧ X.ptr = n ∨ (s.nodes n).parent = some X.ptr)
    {fuel : ℕ} (hfuel : F.ptrs.length ≤ fuel) (hls : ls.length < fuel) :
    ∃ s', undoAction fuel a s = some s' ∧ (F.replaceAt X.ptr (U.replaceAt L.ptr X)).WellFormed width s' ∧
      (F.replaceAt X.ptr (U.replaceAt L.ptr X)).Indexed s' ∧
      ∀ x ∉ F.ptrs, (x ∈ U.ptrs → x ∈ L.ptrs) → s'.nodes x = s.nodes x := by
  obtain ⟨b, V, hnode, hV, -⟩ := hR.shelved.exists_bottom
  obtain ⟨_, _, hst⟩ := hR.shelved.stored
  obtain ⟨A, t, B, hF, hXt, hperm, heq⟩ := exists_split hR.wellFormed.valid hR.mem (U.replaceAt L.ptr X)
  have ht : t ∈ F := hF ▸ by simp
  obtain ⟨-, hother⟩ := notMem_of_split (hF ▸ hR.wellFormed.valid.nodup)
  -- the memory with the chain above `X`
  obtain ⟨h, parent, sibling, hhang, hH⟩ : ∃ h parent sibling,
      hangBack a V.ptr s = some (h, s.roots.erase t.ptr, (t.replaceAt X.ptr (U.replaceAt L.ptr X)).ptr) ∧
        Rehangs width s h₀ h a L U X t fuel parent sibling := by
    by_cases hX : X = t
    · subst hX
      obtain ⟨h, hrun, hH⟩ := hR.exists_hangRoot ht hlower (hhook.imp_left And.right) hV fuel
      exact ⟨h, none, none, hrun, hH⟩
    · have hpar : (s.nodes n).parent = some X.ptr := by
        refine hhook.resolve_left fun h => ?_
        have hXAB : X ∈ A ++ B := by
          have := hF ▸ h.1
          rcases List.mem_append.1 this with hA | hB
          · exact List.mem_append_left _ hA
          · exact List.mem_append_right _ ((List.mem_cons.1 hB).resolve_left hX)
        exact hother X hXAB _ (Tree.ptr_mem_ptrs (Tree.mem_subtrees_self X)) (Tree.ptr_mem_ptrs hXt)
      obtain ⟨l, m, hleaf, -⟩ := (hI.labelToTerminal n a.lower).1 hlower
      obtain ⟨o, hpo, -⟩ := hR.wellFormed.exists_parent hleaf hpar
      have hleafX : Tree.leaf n l m ∈ X.subtrees := by
        rcases hpo with hpo | hpo
        · rw [← eq_of_ptr_eq hR.wellFormed.valid.nodup hpo hR.mem rfl]
          exact Tree.mem_subtrees_node.2 (Or.inr (Or.inl (Tree.mem_subtrees_self _)))
        · rw [← eq_of_ptr_eq hR.wellFormed.valid.nodup hpo hR.mem rfl]
          exact Tree.mem_subtrees_node.2 (Or.inr (Or.inr (Tree.mem_subtrees_self _)))
      exact hR.exists_hangInner (c := Tree.leaf n l m) ht hXt hX hlower hleafX hpar hV hfuel
  have hsib : (h V.ptr).sibling = some X.ptr := by
    obtain ⟨-, hVL, hbU, hVU, hLU, hVb⟩ := Tree.apart_of_node hR.shelved.nodup hnode
    obtain ⟨-, hVst, -⟩ := hst.of_node hnode
    have hVn : V.ptr ≠ U.ptr := fun he => by
      obtain rfl := Tree.eq_of_ptr_eq hR.shelved.nodup hVU (Tree.mem_subtrees_self U) he
      rcases hnode with h | h
      · exact Tree.node_ne_of_mem (Or.inr (Tree.mem_subtrees_self V)) (Tree.subtrees_antisymm h
          (Tree.mem_subtrees_node.2 (Or.inr (Or.inr (Tree.mem_subtrees_self V)))))
      · exact Tree.node_ne_of_mem (Or.inl (Tree.mem_subtrees_self V)) (Tree.subtrees_antisymm h
          (Tree.mem_subtrees_node.2 (Or.inr (Or.inl (Tree.mem_subtrees_self V)))))
    rw [hH.rehung.chain _ (Tree.ptr_mem_ptrs hVU) hVL hVn, hVst]
    exact Tree.rename_self ..
  -- the words of the chain, and those above
  have hXd := (hR.disjoint t ht).symm.mono_right (Tree.subtreeTerminals_subset_of_mem_subtrees hXt)
  obtain ⟨h', hrun, hS, hframe⟩ := Tree.recalculate_spec hR.shelved.hung hR.shelved.valid hR.shelved.nodup
    ((hR.wellFormed.valid.tree t ht).of_mem_subtrees hXt) (hR.labels.2 ▸ hR.within) hXd
    (fun x hx hxL hxX => hR.fresh x hx hxL (List.mem_flatMap.2 ⟨t, ht, Tree.ptrs_subset_of_mem_subtrees hXt hxX⟩)) hst
    hH.rehung hls
  have hSpar : (h' U.ptr).parent = parent := by
    rw [← hR.ptr, hS.root]
    rfl
  obtain ⟨r, h'', hclimb, htst, hkeep⟩ := hH.climb h' hS hframe
  have hsame : ∀ x, x ∉ t.ptrs → (x ∈ U.ptrs → x ∈ L.ptrs) → h'' x = s.nodes x := fun x hx hxU => by
    rw [hkeep x hx, hframe x hxU, hH.frame x hx hxU]
  obtain ⟨hval, hwithin⟩ := hR.valid
  have hstored : ∀ u ∈ F.replaceAt X.ptr (U.replaceAt L.ptr X), u.Stored width h'' none none := fun u hu => by
    rcases List.mem_cons.1 (hperm.subset hu) with rfl | hu
    · exact htst
    · have huF : u ∈ F := by
        rw [hF]
        rcases List.mem_append.1 hu with hu | hu
        · simp [hu]
        · simp [hu]
      exact (hR.wellFormed.stored.trees u huF).congr fun x hx =>
        hsame x (hother u hu x hx) fun hxU => by_contra fun hxL =>
        hR.fresh x hxU hxL (List.mem_flatMap.2 ⟨u, huF, hx⟩)
  have hroots : (s.roots.erase t.ptr).insertIdx (lowerBound h'' (s.roots.erase t.ptr) 0
      (t.replaceAt X.ptr (U.replaceAt L.ptr X)).ptr) (t.replaceAt X.ptr (U.replaceAt L.ptr X)).ptr =
        (F.replaceAt X.ptr (U.replaceAt L.ptr X)).map Tree.ptr := by
    have hA : t.ptr ∉ A.map Tree.ptr := fun hmem => by
      obtain ⟨u, hu, hut⟩ := List.mem_map.1 hmem
      exact hother u (List.mem_append_left _ hu) u.ptr (Tree.ptr_mem_ptrs (Tree.mem_subtrees_self u))
        (hut ▸ Tree.ptr_mem_ptrs (Tree.mem_subtrees_self t))
    have hins := insertIdx_lowerBound (h := h'') [] (G := A ++ B) (v := t.replaceAt X.ptr (U.replaceAt L.ptr X))
      fun u hu => by
        refine hasSmallestTerminal_iff hval hwithin hstored (hperm.symm.subset (List.mem_cons_of_mem _ hu))
          (hperm.symm.subset (List.mem_cons_self ..)) ?_
        have := (hperm.pairwise_iff fun h => Disjoint.symm h).1 hval.disjoint
        exact ((List.pairwise_cons.1 this).1 u hu).symm
    rw [List.nil_append, List.length_nil, List.nil_append, ← heq] at hins
    have hsroots : s.roots = A.map Tree.ptr ++ t.ptr :: B.map Tree.ptr := by
      rw [hR.wellFormed.stored.roots, hF, List.map_append, List.map_cons]
    rw [hsroots, List.erase_append_right _ hA, List.erase_cons_head, ← List.map_append]
    exact hins
  let s' : Store := ⟨h'', (s.roots.erase t.ptr).insertIdx (lowerBound h'' (s.roots.erase t.ptr) 0
    (t.replaceAt X.ptr (U.replaceAt L.ptr X)).ptr) (t.replaceAt X.ptr (U.replaceAt L.ptr X)).ptr,
    ShortenChainAction.insertAll a.reducedLabelToTerminal s.labelToTerminal,
    ShortenChainAction.insertAll a.reducedTerminalToLabel s.terminalToLabel⟩
  refine ⟨s', ?_, ⟨hval, hwithin, hroots, hstored⟩, hR.indexed hI rfl rfl, fun x hx hxU => hsame x (fun hxt =>
    hx (List.mem_flatMap.2 ⟨t, ht, hxt⟩)) hxU⟩
  rw [hR.ptr] at hrun
  simp only [undoAction, hV, hhang, hsib, hR.shelved.upperParent, hrun, hSpar, Option.bind_eq_bind, Option.bind_some]
  rw [hR.shelved.upperParent] at hclimb
  rw [hclimb]
  rfl

end Unshelve

section Shelve

open ShortenChainAction (doAction undoAction)

variable {width : ℕ} {F : Forest} {s : Store} {L U : Tree} {ls : List Label} {lower : Label}

/-- What `doAction` writes is above the chain, beside it or the root of `L`. -/
theorem kept_of_propagate (hF : F.WellFormed width s) {t : Tree} (ht : t ∈ F) (hUt : U ∈ t.subtrees)
    (hL : L ∈ U.subtrees) {g C : Ptr} (hg : (s.nodes U.ptr).parent = some g) (hC : (s.nodes U.ptr).sibling = some C)
    {d : List Bitset.Word} {fuel : ℕ} {h' : Nodes}
    (hrun : (ShortenChainAction.relink s.nodes L.ptr g C).propagate (· ^^^ ·) d false fuel g (some g) =
      some (t.ptr, h')) :
    ∀ x ∈ U.ptrs, x ∉ L.ptrs → h' x = s.nodes x := by
  have htst := hF.stored.trees t ht
  have htn := (List.nodup_flatMap.1 hF.valid.nodup).1 t ht
  obtain ⟨o, hnode, hsib⟩ := hF.exists_parent (mem_subtrees.2 ⟨t, ht, hUt⟩) hg
  obtain rfl := Option.some.inj (hC.symm.trans hsib)
  have hgt : Tree.node g U o ∈ t.subtrees ∨ Tree.node g o U ∈ t.subtrees := by
    have hUg : ∀ {G : Tree}, G ∈ F.subtrees → U ∈ G.subtrees → G ∈ t.subtrees := fun hG hUG => by
      obtain ⟨u, hu, hGu⟩ := mem_subtrees.1 hG
      have hxU := Tree.least_mem U
      rwa [hF.valid.eq_of_mem ht hu (Tree.subtreeTerminals_subset_of_mem_subtrees hUt hxU)
        (Tree.subtreeTerminals_subset_of_mem_subtrees (Tree.subtrees_trans hUG hGu) hxU)]
    refine hnode.imp (fun h => hUg h ?_) fun h => hUg h ?_
    · exact Tree.mem_subtrees_node.2 (Or.inr (Or.inl (Tree.mem_subtrees_self U)))
    · exact Tree.mem_subtrees_node.2 (Or.inr (Or.inr (Tree.mem_subtrees_self U)))
  obtain ⟨hgU, hoU, hgp, hot, -, hog⟩ := Tree.apart_of_node htn hgt
  have hLp := Tree.ptrs_subset_of_mem_subtrees hL (Tree.ptr_mem_ptrs (Tree.mem_subtrees_self L))
  have hLo : L.ptr ≠ o.ptr := fun he => hoU (he ▸ hLp)
  have hgL : g ≠ L.ptr := fun he => hgU (he ▸ hLp)
  intro x hx hxL
  have hxl : x ≠ L.ptr := fun he => hxL (he ▸ Tree.ptr_mem_ptrs (Tree.mem_subtrees_self L))
  have hxo : x ≠ o.ptr := fun he => hoU (he ▸ hx)
  have hxg : x ≠ g := fun he => hgU (he ▸ hx)
  rw [Nodes.propagate_frame hrun (D := {y | y ∈ t.ptrs ∧ y ∉ U.ptrs}) (fun p hp => ?_) (fun y hy z hz => ?_) x
    fun hxD => hxD.2 hx, ShortenChainAction.relink_apply hLo hgL]
  · simp [hxl, hxo, hxg]
  · obtain rfl := Option.some.inj hp
    exact ⟨hgp, hgU⟩
  · -- the parent of a node outside the chain is outside
    have hyL : y ≠ L.ptr := fun he => hy.2 (he ▸ hLp)
    rw [ShortenChainAction.relink_apply hLo hgL, if_neg hyL] at hz
    obtain ⟨c, hc, rfl⟩ : ∃ c ∈ t.subtrees, c.ptr = y := by
      have := hy.1
      rw [← Tree.map_ptr_subtrees] at this
      exact List.mem_map.1 this
    obtain ⟨k, hk, -⟩ := hF.exists_parent (mem_subtrees.2 ⟨t, ht, hc⟩) hz
    refine ⟨(htst.parent_mem hy.1 hz).resolve_left fun h => (by cases h.2), fun hzU => hy.2 ?_⟩
    rw [← Tree.map_ptr_subtrees] at hzU
    obtain ⟨w, hw, rfl⟩ := List.mem_map.1 hzU
    have hwF : w ∈ F.subtrees := mem_subtrees.2 ⟨t, ht, Tree.subtrees_trans hw hUt⟩
    have hcw : c ∈ w.subtrees := by
      rcases hk with hk | hk
      · rw [← eq_of_ptr_eq hF.valid.nodup hk hwF rfl]
        exact Tree.mem_subtrees_node.2 (Or.inr (Or.inl (Tree.mem_subtrees_self c)))
      · rw [← eq_of_ptr_eq hF.valid.nodup hk hwF rfl]
        exact Tree.mem_subtrees_node.2 (Or.inr (Or.inr (Tree.mem_subtrees_self c)))
    exact Tree.ptr_mem_ptrs (Tree.subtrees_trans hcw hw)

/-- The entries of the labels that leave the maps. -/
theorem Indexed.mem_entries (hF : F.Valid) (hI : F.Indexed s) (hU : U ∈ F.subtrees) (hL : L ∈ U.subtrees)
    {D : List Label} (hD : ∀ x, x ∈ D ↔ x ∈ U.subtreeTerminals \ L.subtreeTerminals) {labels : List (Label × Ptr)}
    {terminals : List (Ptr × Label)}
    (hlabels : D.mapM (fun label => (s.labelToTerminal label).map fun n => (label, n)) = some labels)
    (hterm : labels.mapM (fun entry => (s.terminalToLabel entry.2).map fun label => (entry.2, label)) =
      some terminals) :
    (∀ x q, (x, q) ∈ labels ↔ ∃ l m, Tree.leaf q l m ∈ U.subtrees ∧ q ∉ L.ptrs ∧ x ∈ insert l m) ∧
      ∀ q x, (q, x) ∈ terminals ↔ ∃ m, Tree.leaf q x m ∈ U.subtrees ∧ q ∉ L.ptrs := by
  obtain ⟨t, ht, hUt⟩ := mem_subtrees.1 hU
  have hLF : L ∈ F.subtrees := mem_subtrees.2 ⟨t, ht, Tree.subtrees_trans hL hUt⟩
  have hUF : ∀ {c : Tree}, c ∈ U.subtrees → c ∈ F.subtrees :=
    fun hc => mem_subtrees.2 ⟨t, ht, Tree.subtrees_trans hc hUt⟩
  have hmem : ∀ {q l x m}, Tree.leaf q l m ∈ F.subtrees → x ∈ insert l m →
      (x ∈ D ↔ Tree.leaf q l m ∈ U.subtrees ∧ q ∉ L.ptrs) := fun {q l x m} hq hx => by
    rw [hD, Finset.mem_sdiff, mem_subtreeTerminals_iff hF hU hq hx, mem_subtreeTerminals_iff hF hLF hq hx]
    refine and_congr_left fun _ => ⟨fun hqU => ?_, fun h => Tree.ptr_mem_ptrs h⟩
    rw [← Tree.map_ptr_subtrees] at hqU
    obtain ⟨w, hw, hwq⟩ := List.mem_map.1 hqU
    rwa [← eq_of_ptr_eq hF.nodup (hUF hw) hq hwq]
  have hx : ∀ x q, (x, q) ∈ labels ↔ ∃ l m, Tree.leaf q l m ∈ U.subtrees ∧ q ∉ L.ptrs ∧ x ∈ insert l m := fun x q => by
    constructor
    · intro he
      obtain ⟨y, hy, hyx⟩ := (Scan.mapM_mem hlabels).2 _ he
      obtain ⟨p, hp, hpx⟩ := Option.map_eq_some_iff.1 hyx
      obtain ⟨rfl, rfl⟩ := Prod.mk.inj hpx
      obtain ⟨l, m, hl, hym⟩ := (hI.labelToTerminal _ _).1 hp
      obtain ⟨hlU, hlL⟩ := (hmem hl hym).1 hy
      exact ⟨l, m, hlU, hlL, hym⟩
    · rintro ⟨l, m, hl, hqL, hxm⟩
      obtain ⟨e, he, hex⟩ := (Scan.mapM_mem hlabels).1 x ((hmem (hUF hl) hxm).2 ⟨hl, hqL⟩)
      rw [(hI.labelToTerminal q x).2 ⟨l, m, hUF hl, hxm⟩] at hex
      obtain rfl := Option.some.inj hex
      exact he
  refine ⟨hx, fun q x => ⟨fun he => ?_, ?_⟩⟩
  · obtain ⟨⟨y, p⟩, hy, hyx⟩ := (Scan.mapM_mem hterm).2 _ he
    obtain ⟨z, hz, hzx⟩ := Option.map_eq_some_iff.1 hyx
    obtain ⟨rfl, rfl⟩ := Prod.mk.inj hzx
    obtain ⟨l, m, hl, hlL, -⟩ := (hx _ _).1 hy
    obtain ⟨k, hk⟩ := (hI.terminalToLabel _ _).1 hz
    cases eq_of_ptr_eq hF.nodup (hUF hl) hk rfl
    exact ⟨m, hl, hlL⟩
  · rintro ⟨m, hl, hqL⟩
    obtain ⟨e, he, hex⟩ := (Scan.mapM_mem hterm).1 (x, q) ((hx x q).2 ⟨x, m, hl, hqL, Finset.mem_insert_self ..⟩)
    rw [(hI.terminalToLabel q x).2 ⟨m, hUF hl⟩] at hex
    obtain rfl := Option.some.inj hex
    exact he

/-- **A chain that is taken out is kept in memory**, and `lower` hangs in what is left of it. -/
theorem exists_shelved (hF : F.WellFormed width s) (hI : F.Indexed s) {fuel : ℕ} (hfuel : F.ptrs.length ≤ fuel)
    (hls : ls ≠ []) (hchain : List.IsChain s.Link (lower :: ls)) {upper : Label}
    (hupper : (lower :: ls).getLast? = some upper) :
    ∃ act s' L U, doAction fuel lower upper s = some (act, s') ∧ act.lower = lower ∧
      act.Shelved width s.nodes s'.nodes L U ls ∧ U ∈ F.subtrees ∧ (F.replaceAt U.ptr L).WellFormed width s' ∧
      (F.replaceAt U.ptr L).Indexed s' ∧ (∀ x ∉ F.ptrs, s'.nodes x = s.nodes x) ∧
      ∃ n, s'.labelToTerminal lower = some n ∧ (s'.nodes n).parent = some L.ptr := by
  -- the parents of the two terminals
  obtain ⟨y₀, rest, rfl⟩ := List.exists_cons_of_ne_nil hls
  obtain ⟨n, p, g₁, u₁, hn, hnx, hp, -, -, -, -⟩ := (List.isChain_cons_cons.1 hchain).1
  obtain ⟨k, hleaf, -⟩ := hI.exists_terminal hnx
  obtain ⟨L, hLF, rfl, hleafL, hneL⟩ : ∃ L ∈ F.subtrees, L.ptr = p ∧ Tree.leaf n lower k ∈ L.subtrees ∧
      Tree.leaf n lower k ≠ L := by
    obtain ⟨o, h, -⟩ := hF.exists_parent (c := Tree.leaf n lower k) hleaf hp
    rcases h with h | h
    · exact ⟨_, h, rfl, Tree.mem_subtrees_node.2 (Or.inr (Or.inl (Tree.mem_subtrees_self _))), by simp⟩
    · exact ⟨_, h, rfl, Tree.mem_subtrees_node.2 (Or.inr (Or.inr (Tree.mem_subtrees_self _))), by simp⟩
  obtain ⟨U, z, m, hH, hU, hz, hm, hmU, hg⟩ := hung_of_isChain hF hI hn hp hLF hchain
  obtain rfl := Option.some.inj (hz.symm.trans hupper)
  obtain ⟨g, hg⟩ := Option.isSome_iff_exists.1 (hg hls)
  have hL := hH.mem_subtrees
  obtain ⟨lm, km, hmleaf, -⟩ := (hI.labelToTerminal m z).1 hm
  have hterminal : ∀ {q : Ptr} {l : Label} {j : Finset Label},
      Tree.leaf q l j ∈ F.subtrees → q ≠ L.ptr := fun hq he => by
    have := eq_of_ptr_eq hF.valid.nodup hq hLF he
    rw [← this] at hleafL hneL
    exact hneL (List.mem_singleton.1 hleafL)
  -- the memory after the climb
  obtain ⟨A, t, B, hsplit, hUt, -, -⟩ := exists_split hF.valid hU L
  have ht : t ∈ F := hsplit ▸ by simp
  have hUr : U ≠ t := by
    rintro rfl
    rw [(hF.stored.trees U ht).root] at hg
    cases hg
  obtain ⟨C, h', hsib, hrun, hrelink, hlift, hoff, hlinks, G, hGt, rfl, hUG, hwords⟩ :=
    exists_lifted hF hsplit hUt hL (hH.ne hls) hg hfuel (encode width (U.subtreeTerminals \ L.subtreeTerminals))
  obtain ⟨hroot, hroots, hstored⟩ := exists_roots hF hsplit hUt hL hlift hoff hGt hUG hUr hwords
  obtain ⟨hval, hwithin⟩ := Valid.replaceAt hF.valid hU hL hF.within
  have hterminals : ∀ {c : Tree}, c ∈ F.subtrees → (s.nodes c.ptr).subtreeTerminals = encode width c.subtreeTerminals :=
    fun hc => by
      obtain ⟨v, hv, hcv⟩ := mem_subtrees.1 hc
      obtain ⟨_, _, h⟩ := (hF.stored.trees v hv).of_mem hcv
      exact h.words
  have hbitmask : List.zipWith (· ^^^ ·) (ShortenChainAction.relink s.nodes L.ptr G.ptr C L.ptr).subtreeTerminals
      (ShortenChainAction.relink s.nodes L.ptr G.ptr C U.ptr).subtreeTerminals =
        encode width (U.subtreeTerminals \ L.subtreeTerminals) := by
    rw [(hrelink _).1, (hrelink _).1, hterminals hLF, hterminals hU, Bitset.xor_encode,
      symmDiff_of_le (Tree.subtreeTerminals_subset_of_mem_subtrees hL)]
  -- the labels that leave the maps
  have hUw : Within width U.subtreeTerminals :=
    (hF.within t ht).mono (Tree.subtreeTerminals_subset_of_mem_subtrees hUt)
  set D := Bitset.elements (encode width (U.subtreeTerminals \ L.subtreeTerminals)) with hDdef
  have hD : ∀ x, x ∈ D ↔ x ∈ U.subtreeTerminals \ L.subtreeTerminals := fun x =>
    Bitset.mem_elements (hUw.mono Finset.sdiff_subset)
  obtain ⟨labels, terminals, hlabels, hterm⟩ := hI.exists_entries hU fun x hx => (Finset.mem_sdiff.1 ((hD x).1 hx)).1
  obtain ⟨hentries, hentries'⟩ := Indexed.mem_entries hF.valid hI hU hL hD hlabels hterm
  let s' : Store := ⟨h', (s.roots.erase t.ptr).insertIdx (lowerBound h' (s.roots.erase t.ptr) 0 t.ptr) t.ptr,
    fun label => if label ∈ D then none else s.labelToTerminal label,
    fun n => (s.terminalToLabel n).filter fun label => label ∉ D⟩
  have hnt : n ∈ t.ptrs := Tree.ptrs_subset_of_mem_subtrees hUt
    (Tree.ptrs_subset_of_mem_subtrees hL (Tree.ptr_mem_ptrs hleafL))
  refine ⟨⟨lower, z, U.ptr, (s.nodes L.ptr).sibling, labels, terminals,
    encode width (U.subtreeTerminals \ L.subtreeTerminals)⟩, s', L, U, ?_, rfl,
    ⟨hH, hls, (hF.valid.tree t ht).of_mem_subtrees hUt, ?_, hUw, (hF.stored.trees t ht).of_mem hUt, ?_, rfl, rfl, rfl,
      hentries, hentries'⟩, hU, ⟨hval, hwithin, hroots, hstored⟩,
    Indexed.replaceAt hF.valid hI hU hL hD rfl rfl, fun x hx => hoff x fun hxt => hx (List.mem_flatMap.2 ⟨t, ht, hxt⟩),
    n, ?_, ?_⟩
  · unfold ShortenChainAction.doAction
    simp only [hm, hn, hmU, hg, hsib, hp, Option.bind_eq_bind, Option.bind_some, (hrelink m).2 (hterminal hmleaf),
      hbitmask, hrun, hroot, ← hDdef, hlabels, hterm]
    rfl
  · exact Tree.nodup_of_mem_subtrees hUt (notMem_of_split (hsplit ▸ hF.valid.nodup)).1
  · exact kept_of_propagate hF ht hUt hL hg hsib hrun
  · refine (if_neg fun hlow => ?_).trans hn
    have hlowL := Tree.subtreeTerminals_subset_of_mem_subtrees hleafL (Finset.mem_insert_self ..)
    exact (Finset.mem_sdiff.1 ((hD _).1 hlow)).2 hlowL
  · exact ((hlinks n hnt (hterminal hleaf)).1).trans hp

/-- **What is left can take the chain back.** -/
theorem receives_replaceAt (hF : F.WellFormed width s) (hU : U ∈ F.subtrees) {s' : Store} {a : ShortenChainAction}
    (hA : a.Shelved width s.nodes s'.nodes L U ls) (hF' : (F.replaceAt U.ptr L).WellFormed width s') :
    Receives width s' (F.replaceAt U.ptr L) s.nodes a L U L ls := by
  have hL := hA.hung.mem_subtrees
  obtain ⟨A, t, B, rfl, hUt, hperm, -⟩ := exists_split hF.valid hU L
  have ht : t ∈ A ++ t :: B := by simp
  have hn := (notMem_of_split hF.valid.nodup).1
  refine ⟨hF', hA, ?_, fun x hx hxL hxF => hxL (((mem_ptrs_replaceAt hF.valid hU hL).1 hxF).2 hx), fun u hu => ?_⟩
  · exact mem_subtrees.2 ⟨_, hperm.symm.subset (List.mem_cons_self ..),
      Tree.mem_subtrees_replaceAt (hF.valid.tree t ht) hn hUt⟩
  · rcases List.mem_cons.1 (hperm.subset hu) with rfl | hu
    · rw [(Tree.replaceAt_spec hL (hF.valid.tree t ht) hn hUt).2]
      exact Finset.sdiff_disjoint
    · have hd := (List.pairwise_cons.1 (hF.valid.disjoint.perm List.perm_middle fun h => Disjoint.symm h)).1 u hu
      exact hd.symm.mono_right (Finset.sdiff_subset.trans (Tree.subtreeTerminals_subset_of_mem_subtrees hUt))

/-- **Taken out and put back**: right after `doAction` the undo gives the memory back as it was. -/
theorem undoAction_shortened (hF : F.WellFormed width s) (hI : F.Indexed s) {fuel : ℕ} (hfuel : F.ptrs.length ≤ fuel)
    (hls : ls ≠ []) (hchain : List.IsChain s.Link (lower :: ls)) {upper : Label}
    (hupper : (lower :: ls).getLast? = some upper) :
    ∃ act s', doAction fuel lower upper s = some (act, s') ∧ undoAction fuel act s' = some s := by
  obtain ⟨act, s', L, U, hrun, rfl, hA, hU, hF', hI', hoff, n, hn, hpar⟩ := exists_shelved hF hI hfuel hls hchain hupper
  refine ⟨act, s', hrun, ?_⟩
  have hL := hA.hung.mem_subtrees
  have hmem : ∀ x, x ∈ (F.replaceAt U.ptr L).ptrs ↔ x ∈ F.ptrs ∧ (x ∈ U.ptrs → x ∈ L.ptrs) := fun x =>
    mem_ptrs_replaceAt hF.valid hU hL
  have hlen : (F.replaceAt U.ptr L).ptrs.length ≤ fuel :=
    ((hF'.valid.nodup.subperm fun x hx => ((hmem x).1 hx).1).length_le).trans hfuel
  have hshort : ls.length < fuel := by
    have hUF : U.ptrs.length ≤ F.ptrs.length := by
      obtain ⟨D, hD⟩ := exists_ptrs_perm hU
      rw [hD.length_eq, List.length_append]
      omega
    have hLp := List.length_pos_of_mem (Tree.ptr_mem_ptrs (Tree.mem_subtrees_self L))
    have := hA.hung.length_ptrs
    omega
  obtain ⟨s'', hundo, hF'', hI'', hoff'⟩ :=
    (receives_replaceAt hF hU hA hF').exists_undoAction hI' hn (Or.inr hpar) hlen hshort
  rw [Tree.replaceAt_ptr_self hA.valid hA.nodup hL, replaceAt_replaceAt hF.valid hF.within hU hL] at hF'' hI''
  rw [hundo, hF''.eq_of_frame hI'' hF hI fun x hx => ?_]
  rw [hoff' x (fun h => hx ((hmem x).1 h).1) fun hxU => ?_, hoff x hx]
  obtain ⟨D, hD⟩ := exists_ptrs_perm hU
  exact absurd (hD.symm.subset (List.mem_append_left _ hxU)) hx

end Shelve

end Forest

end Maf
