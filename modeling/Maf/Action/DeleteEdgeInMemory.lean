/-
# Cutting an edge, in memory

`src/Solver/Action/DeleteEdgeAction.cpp` with all its writes.  `doAction` links
the sibling to the grandparent, climbs to the root to take the child's labels out
of the words and to sort the children again, and inserts the new root;
`undoAction` goes the same way back with the indices it remembers.

A well-formed forest becomes the forest of `Forest.deleteEdge`, and `undoAction`
restores the memory (`deleteEdge_restores`); actions undone in reverse order
restore it too (`undoAll_doAll`).
-/

import Maf.Graph.Roots

namespace Maf

open Bitset (encode Within)
open Graph

namespace Graph

/-- `DeleteEdgeAction`, as `doAction` leaves it. -/
structure DeleteEdgeAction where
  child : Ptr
  sibling : Ptr
  parent : Ptr
  left : Ptr
  right : Ptr
  parentIsRoot : Bool
  leftRoot_RootsIndex : ℕ
  rightRoot_RootsIndex : ℕ

namespace DeleteEdgeAction

/-- `doParentIsRoot`; the second component is `rightRoot_RootsIndex`. -/
def doParentIsRoot (child sibling left right : Ptr) (leftIndex : ℕ) (s : Store) : ℕ × Store :=
  let roots := s.roots.set leftIndex left
  let rightIndex := lowerBound s.nodes roots leftIndex right
  (rightIndex, { s with
    roots := roots.insertIdx rightIndex right
    nodes := (((s.nodes.setSibling sibling none).setParent sibling none).setSibling child none).setParent
      child none })

/-- `undoParentIsRoot`. -/
def undoParentIsRoot (a : DeleteEdgeAction) (s : Store) : Store :=
  { s with
    roots := (s.roots.set a.leftRoot_RootsIndex a.parent).eraseIdx a.rightRoot_RootsIndex
    nodes := (((s.nodes.setSibling a.sibling (some a.child)).setParent a.sibling (some a.parent)).setSibling
      a.child (some a.sibling)).setParent a.child (some a.parent) }

/-- The writes of `doParentIsInner` that link the sibling to the grandparent. -/
def spliceOut (h : Nodes) (parent sibling grandParent uncle : Ptr) : Nodes :=
  let h₁ :=
    if (h grandParent).leftChild = some parent then h.setLeftChild grandParent (some sibling)
    else h.setRightChild grandParent (some sibling)
  let h₂ := h₁.setParent sibling (some grandParent)
  let h₃ := h₂.setSibling sibling (h₂ parent).sibling
  h₃.setSibling uncle (some sibling)

/-- The indices of the two roots and the new `Roots`; the first of them is that of
the old root. -/
def insertRoots (h : Nodes) (roots : List Ptr) (root child : Ptr) (leftIndex : ℕ) : ℕ × List Ptr :=
  if h.hasSmallestTerminal root child then
    let rightIndex := lowerBound h roots leftIndex child
    (rightIndex, roots.insertIdx rightIndex child)
  else
    let roots' := roots.set leftIndex child
    let rightIndex := lowerBound h roots' leftIndex root
    (rightIndex, roots'.insertIdx rightIndex root)

/-- `doParentIsInner`; the first two components are the indices.  A pointer that is
not there, and a root that `Roots` does not list, give `none`. -/
def doParentIsInner (fuel : ℕ) (child sibling parent : Ptr) (s : Store) : Option (ℕ × ℕ × Store) := do
  let grandParent ← (s.nodes parent).parent
  let uncle ← (s.nodes parent).sibling
  let h := spliceOut s.nodes parent sibling grandParent uncle
  let (root, h) ← h.propagate (· ^^^ ·) (h child).subtreeTerminals false fuel parent (some parent)
  if root ∈ s.roots then
    let leftIndex := s.roots.idxOf root
    let (rightIndex, roots) := insertRoots h s.roots root child leftIndex
    some (leftIndex, rightIndex, { s with
      roots := roots
      nodes := (h.setSibling child none).setParent child none })
  else none

/-- The writes of `undoParentIsInner` that put the parent back between the
grandparent and the sibling. -/
def spliceIn (h : Nodes) (child sibling parent grandParent uncle : Ptr) : Nodes :=
  let h₁ :=
    if (h grandParent).leftChild = some sibling then h.setLeftChild grandParent (some parent)
    else h.setRightChild grandParent (some parent)
  let h₂ := (h₁.setParent sibling (some parent)).setSibling sibling (some child)
  let h₃ := (h₂.setSibling child (some sibling)).setParent child (some parent)
  h₃.setSibling uncle (some parent)

/-- `undoParentIsInner`. -/
def undoParentIsInner (fuel : ℕ) (a : DeleteEdgeAction) (s : Store) : Option Store := do
  let grandParent ← (s.nodes a.parent).parent
  let uncle ← (s.nodes a.parent).sibling
  let h := spliceIn s.nodes a.child a.sibling a.parent grandParent uncle
  let (root, h) ← h.propagate (· ||| ·) (h a.child).subtreeTerminals false fuel a.parent (some a.parent)
  some { s with
    roots := (s.roots.set a.leftRoot_RootsIndex root).eraseIdx a.rightRoot_RootsIndex
    nodes := h }

/-- The constructor with `doAction`; a node without a parent is refused. -/
def doAction (fuel : ℕ) (child : Ptr) (s : Store) : Option (DeleteEdgeAction × Store) := do
  let parent ← (s.nodes child).parent
  let sibling ← (s.nodes child).sibling
  let left ← (s.nodes parent).leftChild
  let right ← (s.nodes parent).rightChild
  if parent ∈ s.roots then
    let leftIndex := s.roots.idxOf parent
    let (rightIndex, s') := doParentIsRoot child sibling left right leftIndex s
    some (⟨child, sibling, parent, left, right, true, leftIndex, rightIndex⟩, s')
  else
    let (leftIndex, rightIndex, s') ← doParentIsInner fuel child sibling parent s
    some (⟨child, sibling, parent, left, right, false, leftIndex, rightIndex⟩, s')

/-- `undoAction`. -/
def undoAction (fuel : ℕ) (a : DeleteEdgeAction) (s : Store) : Option Store :=
  if a.parentIsRoot then some (undoParentIsRoot a s) else undoParentIsInner fuel a s

/-- What taking a parent out of the tree writes. -/
theorem spliceOut_apply {h : Nodes} {p s g u : Ptr} (hsu : s ≠ u) (x : Ptr) :
    spliceOut h p s g u x =
      { parent := if x = s then some g else (h x).parent
        sibling := if x = u then some s else if x = s then (h p).sibling else (h x).sibling
        leftChild := if x = g ∧ (h g).leftChild = some p then some s else (h x).leftChild
        rightChild := if x = g ∧ (h g).leftChild ≠ some p then some s else (h x).rightChild
        subtreeTerminals := (h x).subtreeTerminals } := by
  have hsib : ∀ (h₀ : Nodes) (q : Option Ptr), (∀ y, (h₀ y).sibling = (h y).sibling) →
      ((h₀.setParent s q) p).sibling = (h p).sibling := by
    intro h₀ q heq
    rw [Nodes.setParent, Nodes.modify_apply]
    split_ifs with hp
    · exact heq p
    · exact heq p
  unfold spliceOut
  by_cases hg : (h g).leftChild = some p
  · rw [if_pos hg]
    have hs := hsib (h.setLeftChild g (some s)) (some g) fun y => by
      rw [Nodes.setLeftChild, Nodes.modify_apply]
      split_ifs <;> rfl
    rw [hs]
    simp only [Nodes.setSibling, Nodes.setParent, Nodes.setLeftChild, Nodes.modify_apply, hg]
    by_cases hxu : x = u <;> by_cases hxs : x = s <;> by_cases hxg : x = g <;> simp_all
  · rw [if_neg hg]
    have hs := hsib (h.setRightChild g (some s)) (some g) fun y => by
      rw [Nodes.setRightChild, Nodes.modify_apply]
      split_ifs <;> rfl
    rw [hs]
    simp only [Nodes.setSibling, Nodes.setParent, Nodes.setRightChild, Nodes.modify_apply, hg]
    by_cases hxu : x = u <;> by_cases hxs : x = s <;> by_cases hxg : x = g <;> simp_all

/-- The writes that give a node another sibling and parent. -/
theorem relink_apply (h : Nodes) (c : Ptr) (parent sibling : Option Ptr) (x : Ptr) :
    (h.setSibling c sibling).setParent c parent x =
      if x = c then { h x with parent := parent, sibling := sibling } else h x := by
  rw [Nodes.setParent, Nodes.modify_apply, Nodes.setSibling, Nodes.modify_apply]
  split_ifs <;> rfl

/-- The writes that give two nodes other siblings and parents. -/
theorem relink_relink_apply (h : Nodes) {c s : Ptr} (hcs : c ≠ s) (sp ss cp cs : Option Ptr) (x : Ptr) :
    (((h.setSibling s ss).setParent s sp).setSibling c cs).setParent c cp x =
      if x = c then { h x with parent := cp, sibling := cs }
      else if x = s then { h x with parent := sp, sibling := ss } else h x := by
  rw [relink_apply, relink_apply]
  split_ifs with hxc hxs
  · exact absurd (hxc.symm.trans hxs) hcs
  all_goals rfl

/-- What putting a parent back into the tree writes. -/
theorem spliceIn_apply {h : Nodes} {c s p g u : Ptr} (x : Ptr) :
    spliceIn h c s p g u x =
      { parent := if x = c ∨ x = s then some p else (h x).parent
        sibling := if x = u then some p else if x = c then some s else if x = s then some c else (h x).sibling
        leftChild := if x = g ∧ (h g).leftChild = some s then some p else (h x).leftChild
        rightChild := if x = g ∧ (h g).leftChild ≠ some s then some p else (h x).rightChild
        subtreeTerminals := (h x).subtreeTerminals } := by
  unfold spliceIn
  by_cases hg : (h g).leftChild = some s
  · rw [if_pos hg]
    simp only [Nodes.setSibling, Nodes.setParent, Nodes.setLeftChild, Nodes.modify_apply, hg]
    by_cases hxu : x = u <;> by_cases hxc : x = c <;> by_cases hxs : x = s <;> by_cases hxg : x = g <;> simp_all
  · rw [if_neg hg]
    simp only [Nodes.setSibling, Nodes.setParent, Nodes.setRightChild, Nodes.modify_apply, hg]
    by_cases hxu : x = u <;> by_cases hxc : x = c <;> by_cases hxs : x = s <;> by_cases hxg : x = g <;> simp_all

end DeleteEdgeAction
end Graph

namespace Tree

variable {width : ℕ} {h h' : Nodes}

/-- `sibling` in place of `parent`. -/
def rename (parent sibling : Ptr) (o : Option Ptr) : Option Ptr := if o = some parent then some sibling else o

/-- Another node keeps its name. -/
theorem rename_of_ne {p s q : Ptr} (hq : q ≠ p) : rename p s (some q) = some q := if_neg (by simpa using hq)

/-- The parent is renamed to the sibling. -/
@[simp] theorem rename_self (p s : Ptr) : rename p s (some p) = some s := if_pos rfl

/-- No node is renamed to none. -/
@[simp] theorem rename_none (p s : Ptr) : rename p s none = none := rfl

/-- Another child that is not met either. -/
theorem childrenBehind_rename {p s : Ptr} {P : List Ptr} (hP : h.ChildrenBehind P) (hs : s ∉ P)
    (heq : ∀ q ∈ P, (h' q).leftChild = rename p s (h q).leftChild ∧ (h' q).rightChild = rename p s (h q).rightChild) :
    h'.ChildrenBehind P := by
  induction P with
  | nil => trivial
  | cons q P ih =>
      refine ⟨fun y hy => ?_, ih hP.2 (fun hmem => hs (List.mem_cons_of_mem _ hmem)) fun z hz =>
        heq z (List.mem_cons_of_mem _ hz)⟩
      have hold : y = s ∨ (h q).leftChild = some y ∨ (h q).rightChild = some y := by
        obtain ⟨hl, hr⟩ := heq q (List.mem_cons_self ..)
        rw [hl, hr] at hy
        unfold rename at hy
        split_ifs at hy <;> simp_all <;> tauto
      rcases hold with rfl | hy
      · exact hs
      · exact hP.1 y hy

/-- **The memory after the writes of `doAction`**, on the addresses `A`: the sibling
`s` has taken the place of the parent `p`, the words on the path `P` above no longer
hold `d`, and the children there are sorted. -/
structure Spliced (h h' : Nodes) (A P : List Ptr) (c s p : Ptr) (d : List Bitset.Word) : Prop where
  sibling : h' s = { h s with parent := (h p).parent, sibling := (h p).sibling }
  path : ∀ x ∈ P, x ≠ p → h' x = Nodes.withSortedChildren h' (Nodes.withLabels (· ^^^ ·) d
    { h x with leftChild := rename p s (h x).leftChild, rightChild := rename p s (h x).rightChild })
  other : ∀ x ∈ A, x ∉ P → x ≠ s → x ≠ c → h' x = { h x with sibling := rename p s (h x).sibling }

/-- A tree away from the path stays, up to its sibling. -/
theorem Stored.of_spliced {A P : List Ptr} {c s p : Ptr} {d : List Bitset.Word}
    (hS : Spliced h h' A P c s p d) {t : Tree} {parent sibling : Option Ptr}
    (ht : t.Stored width h parent sibling) (hA : t.ptrs ⊆ A)
    (hP : ∀ x ∈ t.ptrs, x ∉ P ∧ x ≠ s ∧ x ≠ c ∧ x ≠ p) :
    t.Stored width h' parent (rename p s sibling) := by
  have hroot : h' t.ptr = record width parent (rename p s sibling) t := by
    have hmem := ptr_mem_ptrs (mem_subtrees_self t)
    rw [hS.other _ (hA hmem) (hP _ hmem).1 (hP _ hmem).2.1 (hP _ hmem).2.2.1, ht.root]
    rfl
  induction t generalizing parent sibling with
  | leaf => exact hroot
  | node q l r ihl ihr =>
      have hl := ptr_mem_ptrs (mem_subtrees_self l)
      have hr := ptr_mem_ptrs (mem_subtrees_self r)
      have inl : ∀ {x}, x ∈ l.ptrs → x ∈ (node q l r).ptrs := fun hx => by simp [hx]
      have inr : ∀ {x}, x ∈ r.ptrs → x ∈ (node q l r).ptrs := fun hx => by simp [hx]
      have step : ∀ {u : Tree} {sib : Option Ptr}, u.ptr ∈ (node q l r).ptrs → u.Stored width h (some q) sib →
          h' u.ptr = record width (some q) (rename p s sib) u := by
        intro u sib hu hst
        rw [hS.other _ (hA hu) (hP _ hu).1 (hP _ hu).2.1 (hP _ hu).2.2.1, hst.root]
        rfl
      have hl' := ihl ht.2.1 (fun x hx => hA (inl hx)) (fun x hx => hP x (inl hx)) (step (inl hl) ht.2.1)
      have hr' := ihr ht.2.2 (fun x hx => hA (inr hx)) (fun x hx => hP x (inr hx)) (step (inr hr) ht.2.2)
      rw [rename_of_ne (hP _ (inr hr)).2.2.2] at hl'
      rw [rename_of_ne (hP _ (inl hl)).2.2.2] at hr'
      exact ⟨hroot, hl', hr'⟩

/-- The sibling moves up with the tree below it. -/
theorem Stored.of_spliced_sibling {A P : List Ptr} {c p : Ptr} {d : List Bitset.Word} {S : Tree}
    (hS : Spliced h h' A P c S.ptr p d) {parent sibling : Option Ptr} (ht : S.Stored width h parent sibling)
    (hA : S.ptrs ⊆ A) (hn : S.ptrs.Nodup) (hP : ∀ x ∈ S.ptrs, x ∉ P ∧ x ≠ c ∧ x ≠ p) :
    S.Stored width h' (h p).parent (h p).sibling := by
  have hroot : h' S.ptr = record width (h p).parent (h p).sibling S := by
    rw [hS.sibling, ht.root]
    rfl
  cases S with
  | leaf => exact hroot
  | node q l r =>
      rw [ptrs, List.nodup_cons, List.mem_append, not_or] at hn
      have inl : ∀ {x}, x ∈ l.ptrs → x ∈ (node q l r).ptrs := fun hx => by simp [hx]
      have inr : ∀ {x}, x ∈ r.ptrs → x ∈ (node q l r).ptrs := fun hx => by simp [hx]
      have hl := Stored.of_spliced hS ht.2.1 (fun x hx => hA (inl hx)) fun x hx =>
        ⟨(hP x (inl hx)).1, fun he => hn.1.1 ((show x = q from he) ▸ hx), (hP x (inl hx)).2⟩
      have hr := Stored.of_spliced hS ht.2.2 (fun x hx => hA (inr hx)) fun x hx =>
        ⟨(hP x (inr hx)).1, fun he => hn.1.2 ((show x = q from he) ▸ hx), (hP x (inr hx)).2⟩
      rw [rename_of_ne (hP _ (inr (ptr_mem_ptrs (mem_subtrees_self r)))).2.2] at hl
      rw [rename_of_ne (hP _ (inl (ptr_mem_ptrs (mem_subtrees_self l)))).2.2] at hr
      exact ⟨hroot, hl, hr⟩

/-- Sorting the children of a stored node sorts the tree. -/
theorem Stored.sortedNode {q : Ptr} {l r : Tree} {parent sibling : Option Ptr}
    (hl : l.Stored width h' (some q) (some r.ptr)) (hr : r.Stored width h' (some q) (some l.ptr))
    (hlv : l.Valid) (hrv : r.Valid) (hd : Disjoint l.subtreeTerminals r.subtreeTerminals)
    (hw : Within width (l.subtreeTerminals ∪ r.subtreeTerminals))
    (hq : h' q = Nodes.withSortedChildren h' ⟨parent, sibling, some l.ptr, some r.ptr,
      encode width (l.subtreeTerminals ∪ r.subtreeTerminals)⟩) :
    (Tree.sortedNode q l r).Stored width h' parent sibling := by
  have hiff := hasSmallestTerminal_iff hr.words hl.words hrv hlv hd.symm (hw.mono Finset.subset_union_right)
    (hw.mono Finset.subset_union_left)
  simp only [Nodes.withSortedChildren] at hq
  unfold Tree.sortedNode
  split_ifs with hlt
  · rw [if_pos (hiff.2 hlt)] at hq
    refine ⟨hq.trans ?_, hr, hl⟩
    rw [record, subtreeTerminals, Finset.union_comm]
    rfl
  · rw [if_neg fun h => hlt (hiff.1 h)] at hq
    exact ⟨hq, hl, hr⟩

/-- What is said of the memory may be said of fewer nodes. -/
theorem Spliced.mono {A A' P P' : List Ptr} {c s p : Ptr} {d : List Bitset.Word}
    (hS : Spliced h h' A P c s p d) (hA : A' ⊆ A) (hP : P' ⊆ P) (hout : ∀ x ∈ A', x ∈ P → x ∈ P') :
    Spliced h h' A' P' c s p d :=
  ⟨hS.sibling, fun x hx => hS.path x (hP hx), fun x hx hxP => hS.other x (hA hx) fun hmem =>
    hxP (hout x hx hmem)⟩

/-- A subtree around the parent keeps its root, and the parent itself becomes the sibling. -/
theorem rename_ptr {p : Ptr} {S pt u u' : Tree} (hpt : pt.ptr = p) (hu : pt ∈ u.subtrees) (hn : u.ptrs.Nodup)
    (hne : u ≠ pt → u'.ptr = u.ptr) (heq : u = pt → u' = S) : rename p S.ptr (some u.ptr) = some u'.ptr := by
  by_cases h : u = pt
  · rw [heq h, h, hpt, rename_self]
  · rw [hne h, rename_of_ne]
    rintro hp
    exact h (eq_of_ptr_eq hn (mem_subtrees_self u) hu (hp.trans hpt.symm))

/-- The parent and the sibling of `c` lie where its path leads. -/
theorem deeper {p : Ptr} {a b c S u : Tree} (hpt : a = c ∧ b = S ∨ a = S ∧ b = c) {Q R : List Tree}
    (hQ : u.pathTo c = some Q) (hhead : (Q ++ R).head? = some (node p a b)) :
    Q.head? = some (node p a b) ∧ node p a b ∈ u.subtrees ∧ S ∈ u.subtrees := by
  have hpQ : Q.head? = some (node p a b) := by
    obtain ⟨_, _, _, Q', rfl, -⟩ := pathTo_head hQ
    exact hhead
  have hpu := ((mem_of_mem_pathTo hQ).2 _ (List.mem_of_mem_head? hpQ)).1
  refine ⟨hpQ, hpu, subtrees_trans ?_ hpu⟩
  rcases hpt with ⟨-, rfl⟩ | ⟨rfl, -⟩
  · exact mem_subtrees_node.2 (Or.inr (Or.inr (mem_subtrees_self _)))
  · exact mem_subtrees_node.2 (Or.inr (Or.inl (mem_subtrees_self _)))

/-- The other subtree of a node on the path is away from the change. -/
theorem Stored.of_spliced_other {A : List Ptr} {q p : Ptr} {d : List Bitset.Word} {u o u' S c pt : Tree}
    {Q : List Tree} (hS : Spliced h h' A (Q.map ptr ++ [q]) c.ptr S.ptr p d) (hQ : u.pathTo c = some Q)
    (hpt : pt.ptr = p) (hpu : pt ∈ u.subtrees) (hSu : S ∈ u.subtrees) (hun : u.ptrs.Nodup)
    (hdis : ∀ x ∈ u.ptrs, x ∉ o.ptrs) (hqo : q ∉ o.ptrs) (hoA : o.ptrs ⊆ A)
    (ho : o.Stored width h (some q) (some u.ptr)) (hne : u ≠ pt → u'.ptr = u.ptr) (heq : u = pt → u' = S) :
    o.Stored width h' (some q) (some u'.ptr) := by
  rw [← rename_ptr hpt hpu hun hne heq]
  refine Stored.of_spliced hS ho hoA fun x hx => ⟨?_, ?_, ?_, ?_⟩
  · intro hxP
    rw [List.mem_append, List.mem_singleton] at hxP
    rcases hxP with hxP | rfl
    · obtain ⟨y, hy, rfl⟩ := List.mem_map.1 hxP
      exact hdis _ (ptr_mem_of_mem_pathTo hQ hy) hx
    · exact hqo hx
  · rintro rfl
    exact hdis _ (ptr_mem_ptrs hSu) hx
  · rintro rfl
    exact hdis _ (ptr_mem_ptrs (mem_of_mem_pathTo hQ).1) hx
  · rintro rfl
    exact hdis _ (hpt ▸ ptr_mem_ptrs hpu) hx

/-- **What the writes of `doAction` leave of the tree** is the tree without the
child. -/
theorem Stored.detach {p : Ptr} {a b c S : Tree} (hpt : a = c ∧ b = S ∨ a = S ∧ b = c) (hcS : c ≠ S)
    {t : Tree} {P : List Tree} (hP : t.pathTo c = some P) :
    ∀ parent sibling rest, P.head? = some (node p a b) → t.Valid → t.ptrs.Nodup →
      Within width t.subtreeTerminals → t.Stored width h parent sibling → t.detach c = some rest →
      Spliced h h' t.ptrs (P.map ptr) c.ptr S.ptr p (encode width c.subtreeTerminals) →
      rest.Stored width h' parent sibling ∧ (t ≠ node p a b → rest.ptr = t.ptr) ∧
        (t = node p a b → rest = S) := by
  refine pathTo_induction (motive := fun t P => ∀ parent sibling rest, P.head? = some (node p a b) → t.Valid →
      t.ptrs.Nodup → Within width t.subtreeTerminals → t.Stored width h parent sibling →
      t.detach c = some rest →
      Spliced h h' t.ptrs (P.map ptr) c.ptr S.ptr p (encode width c.subtreeTerminals) →
      rest.Stored width h' parent sibling ∧ (t ≠ node p a b → rest.ptr = t.ptr) ∧
        (t = node p a b → rest = S)) ?_ ?_ ?_ hP
  · -- the parent is the root of the tree
    intro q l r hc parent sibling rest hhead hv hn hw ht hdet hS
    rw [List.head?_cons, Option.some.injEq, node.injEq] at hhead
    obtain ⟨rfl, rfl, rfl⟩ := hhead
    have hrest : rest = S := by
      unfold Tree.detach at hdet
      rcases hpt with ⟨rfl, rfl⟩ | ⟨rfl, rfl⟩
      · rw [if_pos rfl] at hdet
        exact (Option.some.inj hdet).symm
      · rw [if_neg (Ne.symm hcS), if_pos rfl] at hdet
        exact (Option.some.inj hdet).symm
    subst hrest
    refine ⟨?_, fun h => absurd rfl h, fun _ => rfl⟩
    obtain ⟨sib, hst⟩ : ∃ sib, rest.Stored width h (some q) sib := by
      rcases hpt with ⟨-, rfl⟩ | ⟨rfl, -⟩
      · exact ⟨_, ht.2.2⟩
      · exact ⟨_, ht.2.1⟩
    have hSn : rest.ptrs ⊆ (node q l r).ptrs ∧ rest.ptrs.Nodup ∧ q ∉ rest.ptrs ∧ c.ptr ∉ rest.ptrs := by
      rw [ptrs, List.nodup_cons, List.mem_append, not_or, List.nodup_append] at hn
      rcases hpt with ⟨rfl, rfl⟩ | ⟨rfl, rfl⟩
      · exact ⟨fun x hx => by simp [hx], hn.2.2.1, hn.1.2, fun hx =>
          hn.2.2.2 _ (ptr_mem_ptrs (mem_subtrees_self _)) _ hx rfl⟩
      · exact ⟨fun x hx => by simp [hx], hn.2.1, hn.1.1, fun hx =>
          hn.2.2.2 _ hx _ (ptr_mem_ptrs (mem_subtrees_self _)) rfl⟩
    have hup := hst.of_spliced_sibling hS hSn.1 hSn.2.1 fun x hx =>
      ⟨by simpa using fun he : x = q => hSn.2.2.1 (he ▸ hx), fun he => hSn.2.2.2 (he ▸ hx),
        fun he => hSn.2.2.1 (he ▸ hx)⟩
    rwa [show h q = _ from ht.1] at hup
  · -- the child lies deeper in the left subtree
    intro q l r Q hlc hrc hQ ih parent sibling rest hhead hv hn hw ht hdet hS
    rw [List.map_append, List.map_singleton, ptr_node] at hS
    obtain ⟨l', hl'⟩ := exists_detach (mem_of_mem_pathTo hQ).1 (Ne.symm hlc)
    have hrest : rest = Tree.sortedNode q l' r := by
      unfold Tree.detach at hdet
      rw [if_neg hlc, if_neg hrc, hl'] at hdet
      exact (Option.some.inj hdet).symm
    obtain ⟨hpQ, hpl, hSl⟩ := deeper hpt hQ hhead
    rw [ptrs, List.nodup_cons, List.mem_append, not_or, List.nodup_append] at hn
    have hpq : q ≠ p := fun he => hn.1.1 (he ▸ ptr_mem_ptrs hpl)
    obtain ⟨hst, hne, heq⟩ := ih (some q) (some r.ptr) l' hpQ hv.1 hn.2.1 (hw.mono Finset.subset_union_left)
      ht.2.1 hl' (hS.mono (fun x hx => by simp [hx]) (fun x hx => List.mem_append_left _ hx) fun x hx hmem =>
        (List.mem_append.1 hmem).resolve_right fun hxq => hn.1.1 (List.mem_singleton.1 hxq ▸ hx))
    have hr : r.Stored width h' (some q) (some l'.ptr) := Stored.of_spliced_other hS hQ rfl hpl hSl hn.2.1
      (fun x hx hx' => hn.2.2.2 x hx x hx' rfl) hn.1.2 (fun x hx => by simp [hx]) ht.2.2 hne heq
    obtain ⟨hlv', hterm, -, -⟩ := detach_spec hv.1 hl'
    have hwords : (l.subtreeTerminals ∪ r.subtreeTerminals) \ c.subtreeTerminals =
        l'.subtreeTerminals ∪ r.subtreeTerminals := by
      rw [hterm, Finset.union_sdiff_distrib, Finset.sdiff_eq_self_of_disjoint (hv.2.2.1.symm.mono_right
        (subtreeTerminals_subset_of_mem_subtrees (mem_of_mem_pathTo hQ).1))]
    have hq := hS.path q (by simp) hpq
    rw [show h q = _ from ht.1] at hq
    refine ⟨hrest ▸ Stored.sortedNode hst hr hlv' hv.2.1 ?_ ?_ (hq.trans ?_), fun _ => ?_, fun he => ?_⟩
    · exact hv.2.2.1.mono_left (hterm ▸ Finset.sdiff_subset)
    · exact hw.mono (hwords ▸ Finset.sdiff_subset)
    · have hrp : r.ptr ≠ p := fun he =>
        hn.2.2.2 _ (ptr_mem_ptrs hpl) _ (ptr_mem_ptrs (mem_subtrees_self r)) he.symm
      have hren : rename p S.ptr (some l.ptr) = some l'.ptr := rename_ptr rfl hpl hn.2.1 hne heq
      rw [← hwords, ← Bitset.xor_encode_subset width ((subtreeTerminals_subset_of_mem_subtrees
        (mem_of_mem_pathTo hQ).1).trans Finset.subset_union_left)]
      simp only [record, leftPtr, rightPtr, hren, rename_of_ne hrp]
      rfl
    · rw [hrest, ptr_sortedNode]
      rfl
    · exact absurd (node.inj he).1 hpq
  · -- the child lies deeper in the right subtree
    intro q l r Q hlc hrc hnone hQ ih parent sibling rest hhead hv hn hw ht hdet hS
    rw [List.map_append, List.map_singleton, ptr_node] at hS
    obtain ⟨r', hr'⟩ := exists_detach (mem_of_mem_pathTo hQ).1 (Ne.symm hrc)
    have hrest : rest = Tree.sortedNode q l r' := by
      have hl : l.detach c = none := by
        by_contra hl
        obtain ⟨l', hl'⟩ := Option.ne_none_iff_exists'.1 hl
        obtain ⟨hcl, hne⟩ := mem_subtrees_of_detach hl'
        obtain ⟨Q', hQ'⟩ := exists_pathTo hcl hne
        rw [hnone] at hQ'
        cases hQ'
      unfold Tree.detach at hdet
      rw [if_neg hlc, if_neg hrc, hl, hr'] at hdet
      exact (Option.some.inj hdet).symm
    obtain ⟨hpQ, hpr, hSr⟩ := deeper hpt hQ hhead
    rw [ptrs, List.nodup_cons, List.mem_append, not_or, List.nodup_append] at hn
    have hpq : q ≠ p := fun he => hn.1.2 (he ▸ ptr_mem_ptrs hpr)
    obtain ⟨hst, hne, heq⟩ := ih (some q) (some l.ptr) r' hpQ hv.2.1 hn.2.2.1
      (hw.mono Finset.subset_union_right) ht.2.2 hr' (hS.mono (fun x hx => by simp [hx])
        (fun x hx => List.mem_append_left _ hx) fun x hx hmem => (List.mem_append.1 hmem).resolve_right
          fun hxq => hn.1.2 (List.mem_singleton.1 hxq ▸ hx))
    have hl : l.Stored width h' (some q) (some r'.ptr) := Stored.of_spliced_other hS hQ rfl hpr hSr hn.2.2.1
      (fun x hx hx' => hn.2.2.2 x hx' x hx rfl) hn.1.1 (fun x hx => by simp [hx]) ht.2.1 hne heq
    obtain ⟨hrv', hterm, -, -⟩ := detach_spec hv.2.1 hr'
    have hwords : (l.subtreeTerminals ∪ r.subtreeTerminals) \ c.subtreeTerminals =
        l.subtreeTerminals ∪ r'.subtreeTerminals := by
      rw [hterm, Finset.union_sdiff_distrib, Finset.sdiff_eq_self_of_disjoint (hv.2.2.1.mono_right
        (subtreeTerminals_subset_of_mem_subtrees (mem_of_mem_pathTo hQ).1))]
    have hq := hS.path q (by simp) hpq
    rw [show h q = _ from ht.1] at hq
    refine ⟨hrest ▸ Stored.sortedNode hl hst hv.1 hrv' ?_ ?_ (hq.trans ?_), fun _ => ?_, fun he => ?_⟩
    · exact hv.2.2.1.mono_right (hterm ▸ Finset.sdiff_subset)
    · exact hw.mono (hwords ▸ Finset.sdiff_subset)
    · have hlp : l.ptr ≠ p := fun he =>
        hn.2.2.2 _ (ptr_mem_ptrs (mem_subtrees_self l)) _ (ptr_mem_ptrs hpr) he
      have hren : rename p S.ptr (some r.ptr) = some r'.ptr := rename_ptr rfl hpr hn.2.2.1 hne heq
      rw [← hwords, ← Bitset.xor_encode_subset width ((subtreeTerminals_subset_of_mem_subtrees
        (mem_of_mem_pathTo hQ).1).trans Finset.subset_union_right)]
      simp only [record, leftPtr, rightPtr, hren, rename_of_ne hlp]
      rfl
    · rw [hrest, ptr_sortedNode]
      rfl
    · exact absurd (node.inj he).1 hpq

/-- A path that ends in `n` has `n` as its second node, or is longer. -/
theorem second_of_append {Q Q' : List Tree} {n a b : Tree} (h : Q ++ [n] = a :: b :: Q') :
    Q = [a] ∧ b = n ∨ ∃ Q'', Q = a :: b :: Q'' := by
  cases Q with
  | nil => cases h
  | cons x Q =>
      cases Q with
      | nil =>
          simp only [List.cons_append, List.nil_append, List.cons.injEq] at h
          exact Or.inl ⟨by rw [h.1], h.2.1.symm⟩
      | cons y Q =>
          simp only [List.cons_append, List.cons.injEq] at h
          exact Or.inr ⟨Q, by rw [h.1, h.2.1]⟩

/-- The second node of a path is the parent of the first. -/
theorem pathTo_second {t c a b : Tree} {Q : List Tree} (hP : t.pathTo c = some (a :: b :: Q)) :
    ∃ g l r, b = node g l r ∧ (l = a ∨ r = a) := by
  have last : ∀ {u : Tree}, u.pathTo c = some [a] → u = a := fun hu => by
    obtain ⟨R, hR⟩ := pathTo_last hu
    obtain rfl : R = [] := by simpa using congrArg List.length hR
    exact (List.singleton_injective hR).symm
  refine pathTo_induction (motive := fun _ P => ∀ Q, P = a :: b :: Q →
    ∃ g l r, b = node g l r ∧ (l = a ∨ r = a)) ?_ ?_ ?_ hP Q rfl
  · intro p l r _ Q h
    cases h
  · intro p l r P' _ _ hl ih Q h
    rcases second_of_append h with ⟨rfl, rfl⟩ | ⟨Q'', rfl⟩
    · exact ⟨p, l, r, rfl, Or.inl (last hl)⟩
    · exact ih _ rfl
  · intro p l r P' _ _ _ hr ih Q h
    rcases second_of_append h with ⟨rfl, rfl⟩ | ⟨Q'', rfl⟩
    · exact ⟨p, l, r, rfl, Or.inr (last hr)⟩
    · exact ih _ rfl

/-- The children of a stored node: the one that is cut off, and its sibling. -/
structure Pair (width : ℕ) (h : Nodes) (p : Ptr) (c S : Tree) : Prop where
  child : c.Stored width h (some p) (some S.ptr)
  sibling : S.Stored width h (some p) (some c.ptr)
  parent_ne_child : p ≠ c.ptr
  parent_ne_sibling : p ≠ S.ptr
  notMem : S.ptr ∉ c.ptrs

/-- The two children are different nodes. -/
theorem Pair.ne {p : Ptr} {c S : Tree} (hpair : Pair width h p c S) : c.ptr ≠ S.ptr := fun he =>
  hpair.notMem (he ▸ ptr_mem_ptrs (mem_subtrees_self c))

/-- Either child of a stored node can be the one that is cut off. -/
theorem Stored.pair {parent sibling : Option Ptr} {t a b c S : Tree} {p : Ptr}
    (ht : t.Stored width h parent sibling) (hn : t.ptrs.Nodup) (hp : node p a b ∈ t.subtrees)
    (hpt : a = c ∧ b = S ∨ a = S ∧ b = c) : Pair width h p c S := by
  obtain ⟨-, -, ha, hb⟩ := ht.children hp
  have hnp := nodup_of_mem_subtrees hp hn
  rw [ptrs, List.nodup_cons, List.mem_append, not_or, List.nodup_append] at hnp
  have hap := ptr_mem_ptrs (mem_subtrees_self a)
  have hbp := ptr_mem_ptrs (mem_subtrees_self b)
  rcases hpt with ⟨rfl, rfl⟩ | ⟨rfl, rfl⟩
  · exact ⟨ha, hb, fun he => hnp.1.1 (he ▸ hap), fun he => hnp.1.2 (he ▸ hbp), fun hx => hnp.2.2.2 _ hx _ hbp rfl⟩
  · exact ⟨hb, ha, fun he => hnp.1.2 (he ▸ hbp), fun he => hnp.1.1 (he ▸ hap), fun hx => hnp.2.2.2 _ hap _ hx rfl⟩

/-- The child is a tree of its own once its links are cleared. -/
theorem Pair.cleared {A P : List Ptr} {c S : Tree} {p : Ptr} {d : List Bitset.Word} (hpair : Pair width h p c S)
    (hn : c.ptrs.Nodup) (hS : Spliced h h' A P c.ptr S.ptr p d) (hA : c.ptrs ⊆ A) (hp : p ∈ P)
    (hP : ∀ x ∈ c.ptrs, x ∉ P) (hc : h' c.ptr = { h c.ptr with parent := none, sibling := none }) :
    c.Stored width h' none none := by
  refine hpair.child.move hn hc fun x hx hxc => ?_
  rw [hS.other x (hA hx) (hP x hx) (fun he => hpair.notMem (he ▸ hx)) hxc]
  have hsib : rename p S.ptr (h x).sibling = (h x).sibling := by
    refine if_neg fun hs => ?_
    rcases hpair.child.sibling_of_sibling hx hs with ⟨-, he⟩ | ⟨hpc, -⟩
    · exact hpair.parent_ne_sibling (Option.some.inj he).symm
    · exact hP p hpc hp
  rw [hsib]

/-- Below a root the sibling takes the place of the parent by losing its links. -/
theorem Pair.spliced_root {a b c S : Tree} {p : Ptr} (hpair : Pair width h p c S)
    (hst : (node p a b).Stored width h none none) (d : List Bitset.Word) :
    Spliced h ((((h.setSibling S.ptr none).setParent S.ptr none).setSibling c.ptr none).setParent c.ptr none)
      (node p a b).ptrs [p] c.ptr S.ptr p d := by
  have hroot : h p = record width none none (node p a b) := hst.root
  refine ⟨?_, fun x hx hne => absurd (List.mem_singleton.1 hx) hne, fun x hx _ hxS hxc => ?_⟩
  · rw [DeleteEdgeAction.relink_relink_apply h hpair.ne, if_neg hpair.ne.symm, if_pos rfl, hroot]
    rfl
  · rw [DeleteEdgeAction.relink_relink_apply h hpair.ne, if_neg hxc, if_neg hxS]
    have hsib : rename p S.ptr (h x).sibling = (h x).sibling := by
      refine if_neg fun hs => ?_
      rcases hst.sibling_of_sibling hx hs with ⟨-, he⟩ | ⟨-, he⟩
      · cases he
      · rw [hroot] at he
        cases he
    rw [hsib]

/-- The nodes around the cut when the parent is an inner node: the child, its
sibling `S`, its uncle `U`, its parent and its grandparent. -/
structure Around (width : ℕ) (h : Nodes) (c S U : Tree) (p g : Ptr) (pt : Tree) : Prop where
  child : h c.ptr = record width (some p) (some S.ptr) c
  sibling : h S.ptr = record width (some p) (some c.ptr) S
  parent : h p = record width (some g) (some U.ptr) pt
  uncle : h U.ptr = record width (some g) (some p) U
  grandParent : (h g).leftChild = some p ∧ (h g).rightChild = some U.ptr ∨
    (h g).leftChild = some U.ptr ∧ (h g).rightChild = some p
  nodup : [g, p, c.ptr, S.ptr, U.ptr].Nodup

/-- The nodes around a cut edge differ from each other. -/
theorem Around.distinct {c S U pt : Tree} {p g : Ptr} (ha : Around width h c S U p g pt) :
    (g ≠ p ∧ g ≠ c.ptr ∧ g ≠ S.ptr ∧ g ≠ U.ptr) ∧ (p ≠ c.ptr ∧ p ≠ S.ptr ∧ p ≠ U.ptr) ∧
      (c.ptr ≠ S.ptr ∧ c.ptr ≠ U.ptr) ∧ S.ptr ≠ U.ptr := by
  have hnd := ha.nodup
  simp only [List.nodup_cons, List.mem_cons, not_or] at hnd
  grind

/-- Every edge below a node that is not a root has its surroundings. -/
theorem exists_around {parent sibling : Option Ptr} {t c a b S gt : Tree} {p : Ptr} {Q : List Tree}
    (ht : t.Stored width h parent sibling) (hn : t.ptrs.Nodup) (hP : t.pathTo c = some (node p a b :: gt :: Q))
    (hpt : a = c ∧ b = S ∨ a = S ∧ b = c) :
    ∃ U ∈ t.subtrees, Around width h c S U p gt.ptr (node p a b) := by
  obtain ⟨g, l, r, rfl, hlr⟩ := pathTo_second hP
  have hg : node g l r ∈ t.subtrees := ((mem_of_mem_pathTo hP).2 _ (by simp)).1
  obtain ⟨hgl, hgr, hls, hrs⟩ := ht.children hg
  obtain ⟨hlt, hrt⟩ := mem_subtrees_children hg
  obtain ⟨U, hU, hpts, hUs, hgch, hgn⟩ : ∃ U ∈ t.subtrees, (node p a b).Stored width h (some g) (some U.ptr) ∧
      U.Stored width h (some g) (some p) ∧ ((h g).leftChild = some p ∧ (h g).rightChild = some U.ptr ∨
        (h g).leftChild = some U.ptr ∧ (h g).rightChild = some p) ∧
      (node g (node p a b) U).ptrs.Nodup := by
    have hgn := nodup_of_mem_subtrees hg hn
    rcases hlr with rfl | rfl
    · exact ⟨r, hrt, hls, hrs, Or.inl ⟨hgl, hgr⟩, hgn⟩
    · refine ⟨l, hlt, hrs, hls, Or.inr ⟨hgl, hgr⟩, ?_⟩
      rw [ptrs, List.nodup_cons] at hgn ⊢
      exact ⟨fun h => hgn.1 (List.perm_append_comm.subset h), List.perm_append_comm.nodup_iff.1 hgn.2⟩
  have hc := ptr_mem_ptrs (mem_subtrees_self c)
  have hS := ptr_mem_ptrs (mem_subtrees_self S)
  have hUp := ptr_mem_ptrs (mem_subtrees_self U)
  have hpair := ht.pair hn ((mem_of_mem_pathTo hP).2 _ (List.mem_cons_self ..)).1 hpt
  refine ⟨U, hU, hpair.child.root, hpair.sibling.root, hpts.root, hUs.root, hgch, ?_⟩
  simp only [ptrs, List.cons_append, List.append_assoc, List.nodup_cons, List.mem_cons, List.mem_append,
    List.nodup_append, not_or] at hgn
  rcases hpt with ⟨rfl, rfl⟩ | ⟨rfl, rfl⟩
  · simp only [List.nodup_cons, List.mem_cons, not_or, ptr_node]
    grind
  · simp only [List.nodup_cons, List.mem_cons, not_or, ptr_node]
    grind

section Inner

variable {t c a b S U : Tree} {p g : Ptr} {Q : List Tree}

/-- Only the grandparent has the parent as a child, only the uncle has it as a
sibling. -/
theorem Around.neighbours (ha : Around width h c S U p g (node p a b)) (ht : t.Stored width h none none)
    {x : Ptr} (hx : x ∈ t.ptrs) :
    ((h x).sibling = some p → x = U.ptr) ∧ ((h x).leftChild = some p ∨ (h x).rightChild = some p → x = g) := by
  constructor
  · intro hs
    rcases ht.sibling_of_sibling hx hs with ⟨-, he⟩ | ⟨-, he⟩
    · cases he
    · rw [ha.parent] at he
      exact (Option.some.inj he).symm
  · intro hc
    have := (ht.parent_of_child hx hc).2
    rw [ha.parent] at this
    exact (Option.some.inj this).symm

/-- What `spliceOut` writes, on the tree. -/
theorem Around.spliceOut_eq (ha : Around width h c S U p g (node p a b)) (ht : t.Stored width h none none)
    {x : Ptr} (hx : x ∈ t.ptrs) : DeleteEdgeAction.spliceOut h p S.ptr g U.ptr x =
      if x = S.ptr then { h x with parent := some g, sibling := some U.ptr }
      else { h x with
        sibling := rename p S.ptr (h x).sibling
        leftChild := rename p S.ptr (h x).leftChild
        rightChild := rename p S.ptr (h x).rightChild } := by
  obtain ⟨⟨-, -, hgS, hgU⟩, ⟨-, -, hpU⟩, -, hSU⟩ := ha.distinct
  obtain ⟨hsib, hch⟩ := ha.neighbours ht hx
  rw [DeleteEdgeAction.spliceOut_apply hSU, ha.parent]
  by_cases hxS : x = S.ptr
  · have hxU : x ≠ U.ptr := fun he => hSU (hxS.symm.trans he)
    have hxg : x ≠ g := fun he => hgS (he.symm.trans hxS)
    simp only [if_pos hxS, if_neg hxU, hxg, false_and, if_false]
    rfl
  · have hleft : (if x = g ∧ (h g).leftChild = some p then some S.ptr else (h x).leftChild) =
        rename p S.ptr (h x).leftChild := by
      unfold rename
      by_cases hxg : x = g
      · rw [hxg]
        simp
      · rw [if_neg fun hc => hxg hc.1, if_neg fun hc => hxg (hch (Or.inl hc))]
    have hright : (if x = g ∧ (h g).leftChild ≠ some p then some S.ptr else (h x).rightChild) =
        rename p S.ptr (h x).rightChild := by
      unfold rename
      by_cases hxg : x = g
      · rw [hxg]
        rcases ha.grandParent with ⟨hl, hr⟩ | ⟨hl, hr⟩
        · simp [hl, hr, Ne.symm hpU]
        · simp [hl, hr, Ne.symm hpU]
      · rw [if_neg fun hc => hxg hc.1, if_neg fun hc => hxg (hch (Or.inr hc))]
    have hsibling : (if x = U.ptr then some S.ptr else (h x).sibling) = rename p S.ptr (h x).sibling := by
      unfold rename
      by_cases hxU : x = U.ptr
      · rw [hxU, ha.uncle]
        simp [record]
      · rw [if_neg hxU, if_neg fun hc => hxU (hsib hc)]
    simp only [if_neg hxS, hleft, hright, hsibling]

/-- Off the tree nothing is written. -/
theorem Around.spliceOut_off (ha : Around width h c S U p g (node p a b)) {x : Ptr} (hxS : x ≠ S.ptr)
    (hxU : x ≠ U.ptr) (hxg : x ≠ g) : DeleteEdgeAction.spliceOut h p S.ptr g U.ptr x = h x := by
  rw [DeleteEdgeAction.spliceOut_apply ha.distinct.2.2.2]
  simp [hxS, hxU, hxg]

/-- All nodes around the cut lie in the tree. -/
theorem Around.mem_ptrs (ha : Around width h c S U p g (node p a b)) (ht : t.Stored width h none none)
    {gt : Tree} (hg : gt.ptr = g) (hP : t.pathTo c = some (node p a b :: gt :: Q))
    (hpt : a = c ∧ b = S ∨ a = S ∧ b = c) :
    (∀ x ∈ p :: g :: Q.map ptr, x ∈ t.ptrs) ∧ c.ptr ∈ t.ptrs ∧ S.ptr ∈ t.ptrs ∧ U.ptr ∈ t.ptrs := by
  have hmem : ∀ x ∈ p :: g :: Q.map ptr, x ∈ t.ptrs := by
    intro x hx
    have hmap : (node p a b :: gt :: Q).map ptr = p :: g :: Q.map ptr := by
      rw [List.map_cons, List.map_cons, hg, ptr_node]
    rw [← hmap] at hx
    obtain ⟨u, hu, rfl⟩ := List.mem_map.1 hx
    exact ptr_mem_of_mem_pathTo hP hu
  refine ⟨hmem, ptr_mem_ptrs (mem_of_mem_pathTo hP).1, ?_, ?_⟩
  · refine (ht.parent_of_child (hmem p (List.mem_cons_self ..)) ?_).1
    rw [ha.parent]
    rcases hpt with ⟨-, rfl⟩ | ⟨rfl, -⟩
    · exact Or.inr rfl
    · exact Or.inl rfl
  · refine (ht.parent_of_child (hmem g (List.mem_cons_of_mem _ (List.mem_cons_self ..))) ?_).1
    rcases ha.grandParent with ⟨-, hU⟩ | ⟨hU, -⟩
    · exact Or.inr hU
    · exact Or.inl hU

/-- The child, its sibling and its uncle are not on the path. -/
theorem Around.notMem_path (ha : Around width h c S U p g (node p a b)) (ht : t.Stored width h none none)
    (hn : t.ptrs.Nodup) {gt : Tree} (hg : gt.ptr = g) (hP : t.pathTo c = some (node p a b :: gt :: Q))
    (hpt : a = c ∧ b = S ∨ a = S ∧ b = c) :
    c.ptr ∉ p :: g :: Q.map ptr ∧ S.ptr ∉ p :: g :: Q.map ptr ∧ U.ptr ∉ p :: g :: Q.map ptr := by
  have hbehind := ht.childrenBehind hP hn
  rw [List.map_cons, List.map_cons, hg, ptr_node] at hbehind
  obtain ⟨hp, hgb, -⟩ := hbehind
  rw [ha.parent] at hp
  refine ⟨hp _ ?_, hp _ ?_, ?_⟩
  · rcases hpt with ⟨rfl, -⟩ | ⟨-, rfl⟩
    · exact Or.inl rfl
    · exact Or.inr rfl
  · rcases hpt with ⟨-, rfl⟩ | ⟨rfl, -⟩
    · exact Or.inr rfl
    · exact Or.inl rfl
  · rw [List.mem_cons, not_or]
    refine ⟨ha.distinct.2.1.2.2.symm, hgb _ ?_⟩
    rcases ha.grandParent with ⟨-, hU⟩ | ⟨hU, -⟩
    · exact Or.inr hU
    · exact Or.inl hU

/-- **The climb of `doParentIsInner`.** -/
theorem Around.propagate_eq (ha : Around width h c S U p g (node p a b)) (ht : t.Stored width h none none)
    (hn : t.ptrs.Nodup) {gt : Tree} (hg : gt.ptr = g) (hP : t.pathTo c = some (node p a b :: gt :: Q))
    (hpt : a = c ∧ b = S ∨ a = S ∧ b = c) {fuel : ℕ} (hfuel : (node p a b :: gt :: Q).length ≤ fuel)
    (d : List Bitset.Word) :
    (DeleteEdgeAction.spliceOut h p S.ptr g U.ptr).propagate (· ^^^ ·) d false fuel p (some p) =
      some (t.ptr, Nodes.sortAll (p :: g :: Q.map ptr) (Nodes.addLabels (· ^^^ ·) d (p :: g :: Q.map ptr)
        (DeleteEdgeAction.spliceOut h p S.ptr g U.ptr))) := by
  obtain ⟨hcP, hSP, hUP⟩ := ha.notMem_path ht hn hg hP hpt
  have hmap : (node p a b :: gt :: Q).map ptr = p :: g :: Q.map ptr := by
    rw [List.map_cons, List.map_cons, hg, ptr_node]
  obtain ⟨hmem, -⟩ := ha.mem_ptrs ht hg hP hpt
  have hval : ∀ x ∈ p :: g :: Q.map ptr, DeleteEdgeAction.spliceOut h p S.ptr g U.ptr x = { h x with
      sibling := rename p S.ptr (h x).sibling
      leftChild := rename p S.ptr (h x).leftChild
      rightChild := rename p S.ptr (h x).rightChild } := fun x hx => by
    rw [ha.spliceOut_eq ht (hmem x hx), if_neg fun he : x = S.ptr => hSP (he ▸ hx)]
  have hchain := ht.parentChain hP
  have hnd := nodup_pathTo hP hn
  have hbehind := ht.childrenBehind hP hn
  have hinner := ht.inner hP
  rw [hmap] at hchain hnd hbehind hinner
  rw [ha.child] at hchain
  have hlast : (p :: g :: Q.map ptr).getLastD p = t.ptr := by
    obtain ⟨R, hR⟩ := pathTo_last hP
    rw [← hmap, hR, List.map_append, List.map_singleton, List.getLastD_concat]
  rw [← hlast]
  refine Nodes.propagate_eq (hchain.congr fun x hx => by rw [hval x hx]) hnd ?_ (Or.inr fun x hx => ?_)
    (by simpa using hfuel)
  · -- the sibling is the one new child
    exact childrenBehind_rename hbehind hSP fun x hx => by
      rw [hval x hx]
      exact ⟨rfl, rfl⟩
  · obtain ⟨hl, hr⟩ := hinner x hx
    rw [hval x hx]
    unfold rename
    constructor <;> dsimp only <;> split_ifs <;> simp [hl, hr]

/-- **The memory after `doParentIsInner`.** -/
theorem Around.spliced (ha : Around width h c S U p g (node p a b)) (ht : t.Stored width h none none)
    (hn : t.ptrs.Nodup) {gt : Tree} (hg : gt.ptr = g) (hP : t.pathTo c = some (node p a b :: gt :: Q))
    (hpt : a = c ∧ b = S ∨ a = S ∧ b = c) {d : List Bitset.Word} {H h₃ : Nodes}
    (hH : H = Nodes.sortAll (p :: g :: Q.map ptr) (Nodes.addLabels (· ^^^ ·) d (p :: g :: Q.map ptr)
      (DeleteEdgeAction.spliceOut h p S.ptr g U.ptr)))
    (hh₃ : h₃ = (H.setSibling c.ptr none).setParent c.ptr none) :
    Spliced h h₃ t.ptrs (p :: g :: Q.map ptr) c.ptr S.ptr p d ∧
      h₃ c.ptr = { h c.ptr with parent := none, sibling := none } ∧ (∀ x ∉ t.ptrs, h₃ x = h x) ∧
      ∀ x ∈ p :: g :: Q.map ptr, h₃ x = Nodes.withSortedChildren h₃ (Nodes.withLabels (· ^^^ ·) d
        { h x with leftChild := rename p S.ptr (h x).leftChild
                   rightChild := rename p S.ptr (h x).rightChild }) := by
  obtain ⟨hcP, hSP, hUP⟩ := ha.notMem_path ht hn hg hP hpt
  obtain ⟨⟨-, hgc, hgS, hgU⟩, ⟨hpc, hpS, hpU⟩, ⟨hcS, hcU⟩, hSU⟩ := ha.distinct
  set P := p :: g :: Q.map ptr with hPdef
  obtain ⟨hmem, hct, hSt, hUt⟩ := ha.mem_ptrs ht hg hP hpt
  have h₃x : ∀ x, x ≠ c.ptr → h₃ x = H x := fun x hx => by
    rw [hh₃, DeleteEdgeAction.relink_apply, if_neg hx]
  have hHx : ∀ x, x ∉ P → H x = DeleteEdgeAction.spliceOut h p S.ptr g U.ptr x := fun x hx => by
    rw [hH, Nodes.sortAll_of_notMem hx, Nodes.addLabels_of_notMem hx]
  -- sorting and unlinking leave the words alone
  have hwords : ∀ x, (Nodes.addLabels (· ^^^ ·) d P (DeleteEdgeAction.spliceOut h p S.ptr g U.ptr)
      x).subtreeTerminals = (h₃ x).subtreeTerminals := by
    intro x
    have hHw : (H x).subtreeTerminals = (Nodes.addLabels (· ^^^ ·) d P
        (DeleteEdgeAction.spliceOut h p S.ptr g U.ptr) x).subtreeTerminals := by
      rw [hH]
      by_cases hx : x ∈ P
      · rw [Nodes.sortAll_of_mem hx, Nodes.withSortedChildren_subtreeTerminals]
      · rw [Nodes.sortAll_of_notMem hx]
    rw [← hHw, hh₃, DeleteEdgeAction.relink_apply]
    split_ifs <;> rfl
  have hpath : ∀ x ∈ P, h₃ x = Nodes.withSortedChildren h₃ (Nodes.withLabels (· ^^^ ·) d
      { h x with leftChild := rename p S.ptr (h x).leftChild
                 rightChild := rename p S.ptr (h x).rightChild }) := by
    intro x hx
    have hxc : x ≠ c.ptr := fun he => hcP (he ▸ hx)
    have hxS : x ≠ S.ptr := fun he => hSP (he ▸ hx)
    have hxU : x ≠ U.ptr := fun he => hUP (he ▸ hx)
    have hsib : rename p S.ptr (h x).sibling = (h x).sibling :=
      if_neg fun hs => hxU ((ha.neighbours ht (hmem x hx)).1 hs)
    rw [h₃x x hxc, hH, Nodes.sortAll_of_mem hx, Nodes.addLabels_of_mem hx,
      Nodes.withSortedChildren_congr fun y _ => hwords y, ha.spliceOut_eq ht (hmem x hx), if_neg hxS, hsib]
  refine ⟨⟨?_, fun x hx _ => hpath x hx, fun x hxt hxP hxS hxc => ?_⟩, ?_, fun x hx => ?_, hpath⟩
  · rw [h₃x _ hcS.symm, hHx _ hSP, ha.spliceOut_eq ht hSt, if_pos rfl, ha.parent]
    rfl
  · have hch := (ha.neighbours ht hxt).2
    have hxg : x ≠ g := fun he => hxP (he ▸ by simp [hPdef])
    have hl : rename p S.ptr (h x).leftChild = (h x).leftChild := if_neg fun hc => hxg (hch (Or.inl hc))
    have hr : rename p S.ptr (h x).rightChild = (h x).rightChild := if_neg fun hc => hxg (hch (Or.inr hc))
    rw [h₃x x hxc, hHx x hxP, ha.spliceOut_eq ht hxt, if_neg hxS, hl, hr]
  · have hch := (ha.neighbours ht hct).2
    have hl : rename p S.ptr (h c.ptr).leftChild = (h c.ptr).leftChild :=
      if_neg fun hc => hgc (hch (Or.inl hc)).symm
    have hr : rename p S.ptr (h c.ptr).rightChild = (h c.ptr).rightChild :=
      if_neg fun hc => hgc (hch (Or.inr hc)).symm
    rw [hh₃, DeleteEdgeAction.relink_apply, if_pos rfl, hHx _ hcP, ha.spliceOut_eq ht hct, if_neg hcS, hl, hr]
  · have hne : ∀ {y}, y ∈ t.ptrs → x ≠ y := fun hy he => hx (he ▸ hy)
    have hxP : x ∉ P := fun hxP => hx (hmem x hxP)
    rw [h₃x x (hne hct), hHx x hxP, ha.spliceOut_off (hne hSt) (hne hUt) (hne (hmem g (by simp)))]

/-- **`undoParentIsInner` climbs back to the old memory.** -/
theorem Around.restore (ha : Around width h c S U p g (node p a b)) (ht : t.Stored width h none none)
    (hv : t.Valid) (hn : t.ptrs.Nodup) (hw : Within width t.subtreeTerminals) {gt : Tree} (hg : gt.ptr = g)
    (hP : t.pathTo c = some (node p a b :: gt :: Q)) (hpt : a = c ∧ b = S ∨ a = S ∧ b = c) {h₃ : Nodes}
    (hS : Spliced h h₃ t.ptrs (p :: g :: Q.map ptr) c.ptr S.ptr p (encode width c.subtreeTerminals))
    (hc₃ : h₃ c.ptr = { h c.ptr with parent := none, sibling := none }) (hoff : ∀ x ∉ t.ptrs, h₃ x = h x)
    (hpath : ∀ x ∈ p :: g :: Q.map ptr, h₃ x = Nodes.withSortedChildren h₃ (Nodes.withLabels (· ^^^ ·)
      (encode width c.subtreeTerminals) { h x with
        leftChild := rename p S.ptr (h x).leftChild
        rightChild := rename p S.ptr (h x).rightChild }))
    {fuel : ℕ} (hfuel : (node p a b :: gt :: Q).length ≤ fuel) :
    (h₃ p).parent = some g ∧ (h₃ p).sibling = some U.ptr ∧
      (DeleteEdgeAction.spliceIn h₃ c.ptr S.ptr p g U.ptr).propagate (· ||| ·)
        ((DeleteEdgeAction.spliceIn h₃ c.ptr S.ptr p g U.ptr) c.ptr).subtreeTerminals false fuel p (some p) =
        some (t.ptr, h) := by
  obtain ⟨hcP, hSP, hUP⟩ := ha.notMem_path ht hn hg hP hpt
  obtain ⟨⟨hgp, hgc, hgS, hgU⟩, ⟨hpc, hpS, hpU⟩, ⟨hcS, hcU⟩, hSU⟩ := ha.distinct
  obtain ⟨hmem, -, -, hUt⟩ := ha.mem_ptrs ht hg hP hpt
  have hmap : (node p a b :: gt :: Q).map ptr = p :: g :: Q.map ptr := by
    rw [List.map_cons, List.map_cons, hg, ptr_node]
  have hp₃ := hpath p (List.mem_cons_self ..)
  refine ⟨?_, ?_, ?_⟩
  · rw [hp₃, Nodes.withSortedChildren_parent, Nodes.withLabels_parent, ha.parent]
    rfl
  · rw [hp₃, Nodes.withSortedChildren_sibling, Nodes.withLabels_sibling, ha.parent]
    rfl
  have hd : ((DeleteEdgeAction.spliceIn h₃ c.ptr S.ptr p g U.ptr) c.ptr).subtreeTerminals =
      encode width c.subtreeTerminals := by
    rw [DeleteEdgeAction.spliceIn_apply, hc₃, ha.child]
    rfl
  rw [hd]
  have hstart : (h c.ptr).parent = some p := by rw [ha.child]; rfl
  rw [← hstart]
  refine ht.restore hv hn hw hP (fun x hx => ?_) (fun x hx => ?_) hfuel p
  · rw [hmap] at hx
    rw [DeleteEdgeAction.spliceIn_apply]
    have hxg : x ≠ g := fun he => hx (by simp [he])
    by_cases hxc : x = c.ptr
    · subst hxc
      simp only [true_or, if_true, if_neg hcU, hxg, false_and, if_false, hc₃, ha.child]
      rfl
    by_cases hxS : x = S.ptr
    · subst hxS
      simp only [or_true, if_true, if_neg hSU, if_neg hxc, hxg, false_and, if_false, hS.sibling, ha.sibling]
      rfl
    by_cases hxt : x ∈ t.ptrs
    · rw [hS.other x hxt hx hxS hxc]
      by_cases hxU : x = U.ptr
      · subst hxU
        simp only [hxc, hxS, hxg, false_or, false_and, if_false, if_true, ha.uncle]
        rfl
      · have hsib : rename p S.ptr (h x).sibling = (h x).sibling :=
          if_neg fun hs => hxU ((ha.neighbours ht hxt).1 hs)
        simp only [hxc, hxS, hxU, hxg, false_or, false_and, if_false, hsib]
    · have hxU : x ≠ U.ptr := fun he => hxt (he ▸ hUt)
      simp only [hxc, hxS, hxU, hxg, false_or, false_and, if_false, hoff x hxt]
  · rw [hmap] at hx
    have hxc : x ≠ c.ptr := fun he => hcP (he ▸ hx)
    have hxS : x ≠ S.ptr := fun he => hSP (he ▸ hx)
    have hxU : x ≠ U.ptr := fun he => hUP (he ▸ hx)
    have hx₃ := hpath x hx
    have hpar : (h₃ x).parent = (h x).parent := by
      rw [hx₃, Nodes.withSortedChildren_parent, Nodes.withLabels_parent]
    have hsib : (h₃ x).sibling = (h x).sibling := by
      rw [hx₃, Nodes.withSortedChildren_sibling, Nodes.withLabels_sibling]
    have hwords : (h₃ x).subtreeTerminals =
        List.zipWith (· ^^^ ·) (h x).subtreeTerminals (encode width c.subtreeTerminals) := by
      rw [hx₃, Nodes.withSortedChildren_subtreeTerminals]
      rfl
    have hch : (h₃ x).leftChild = rename p S.ptr (h x).leftChild ∧
          (h₃ x).rightChild = rename p S.ptr (h x).rightChild ∨
        (h₃ x).leftChild = rename p S.ptr (h x).rightChild ∧
          (h₃ x).rightChild = rename p S.ptr (h x).leftChild := by
      rw [hx₃]
      exact Nodes.withSortedChildren_children ..
    rw [DeleteEdgeAction.spliceIn_apply]
    simp only [hxc, hxS, hxU, or_self, if_false]
    refine ⟨hpar, hsib, ?_, ?_⟩
    · obtain ⟨u, hu, rfl⟩ := List.mem_map.1 (hmap ▸ hx)
      obtain ⟨hut, hcu, -⟩ := (mem_of_mem_pathTo hP).2 u hu
      obtain ⟨_, _, hus⟩ := ht.of_mem hut
      have hsub := subtreeTerminals_subset_of_mem_subtrees hcu
      rw [hwords, hus.words, Bitset.xor_encode_subset width hsub, Bitset.or_encode,
        Finset.sdiff_union_of_subset hsub]
    · by_cases hxg : x = g
      · subst hxg
        have hUp : rename p S.ptr (some U.ptr) = some U.ptr := rename_of_ne hpU.symm
        rcases ha.grandParent with ⟨hl, hr⟩ | ⟨hl, hr⟩ <;> rw [hl, hr, rename_self, hUp] at hch <;>
          rcases hch with ⟨hl₃, hr₃⟩ | ⟨hl₃, hr₃⟩ <;> simp [hl, hr, hl₃, hr₃, hSU.symm]
      · have hn' := (ha.neighbours ht (hmem x hx)).2
        have hl : rename p S.ptr (h x).leftChild = (h x).leftChild := if_neg fun hc => hxg (hn' (Or.inl hc))
        have hr : rename p S.ptr (h x).rightChild = (h x).rightChild := if_neg fun hc => hxg (hn' (Or.inr hc))
        rw [hl, hr] at hch
        simpa only [hxg, false_and, if_false] using hch

end Inner

end Tree

namespace Forest

variable {width : ℕ} {s : Store} {F : Forest}

/-- **Where a node lies**: its tree, and the path up to it. -/
theorem exists_location (hF : F.Valid) {c : Tree} (hc : c ∈ F.subtrees) (hroot : c ∉ F) :
    ∃ A t B p a b S Q, F = A ++ t :: B ∧ t.pathTo c = some (Tree.node p a b :: Q) ∧
      (a = c ∧ b = S ∨ a = S ∧ b = c) ∧ ∀ u ∈ A, u.detach c = none := by
  obtain ⟨t, ht, hct⟩ := mem_subtrees.1 hc
  obtain ⟨A, B, rfl⟩ := List.append_of_mem ht
  obtain ⟨P, hP⟩ := Tree.exists_pathTo hct fun he => hroot (he ▸ ht)
  obtain ⟨p, a, b, Q, rfl, hab⟩ := Tree.pathTo_head hP
  obtain ⟨S, hS⟩ : ∃ S, a = c ∧ b = S ∨ a = S ∧ b = c := by
    rcases hab with h | h
    · exact ⟨b, Or.inl ⟨h, rfl⟩⟩
    · exact ⟨a, Or.inr ⟨rfl, h⟩⟩
  refine ⟨A, t, B, p, a, b, S, Q, rfl, hP, hS, fun u hu => ?_⟩
  by_contra hne
  obtain ⟨rest, hrest⟩ := Option.ne_none_iff_exists'.1 hne
  have hcu := (Tree.mem_subtrees_of_detach hrest).1
  obtain ⟨x, hx⟩ := c.labels_nonempty
  have hx := Tree.labels_subset_subtreeTerminals c hx
  have hdis := (List.pairwise_append.1 hF.disjoint).2.2 u hu t (List.mem_cons_self ..)
  exact Finset.disjoint_left.1 hdis (Tree.subtreeTerminals_subset_of_mem_subtrees hcu hx)
    (Tree.subtreeTerminals_subset_of_mem_subtrees hct hx)

/-- The trees after the cut are stored when its two parts are and the rest of the
memory is as before. -/
theorem Stored.deleteEdge (hF : F.WellFormed width s) {A B F' : Forest} {t c rest : Tree}
    (hsplit : F = A ++ t :: B) (hdel : F.deleteEdge c = some F') (hdet : t.detach c = some rest) {h' : Nodes}
    (hrest : rest.Stored width h' none none) (hcs : c.Stored width h' none none)
    (hoff : ∀ x ∉ t.ptrs, h' x = s.nodes x) : ∀ u ∈ F', u.Stored width h' none none := by
  obtain ⟨t', ht', rest', hdet', hperm, -⟩ := deleteEdge_spec hF.valid hdel
  have htF : t ∈ F := hsplit ▸ by simp
  have htt : t' = t := by
    obtain ⟨x, hx⟩ := c.labels_nonempty
    exact hF.valid.distinct.eq_of_mem ht' htF
      (Tree.labels_subset_of_mem_subtrees (Tree.mem_subtrees_of_detach hdet').1 hx)
      (Tree.labels_subset_of_mem_subtrees (Tree.mem_subtrees_of_detach hdet).1 hx)
  subst htt
  obtain rfl : rest' = rest := Option.some.inj (hdet'.symm.trans hdet)
  have hn := hF.valid.nodup
  subst hsplit
  have hperm' : F'.Perm (rest' :: c :: (A ++ B)) := by
    refine List.Perm.cons_inv (a := t') (hperm.trans ?_)
    refine (((List.perm_middle).cons c).cons rest').trans ?_
    exact ((List.Perm.swap t' c _).cons rest').trans (List.Perm.swap t' rest' _)
  intro u hu
  rcases List.mem_cons.1 (hperm'.subset hu) with rfl | hu
  · exact hrest
  rcases List.mem_cons.1 hu with rfl | hu
  · exact hcs
  have huF : u ∈ A ++ t' :: B := by
    rcases List.mem_append.1 hu with hu | hu
    · simp [hu]
    · simp [hu]
  exact (hF.stored.trees u huF).congr fun x hx => hoff x ((notMem_of_split hn).2 u hu x hx)

/-- A root that is not the least goes to its place, and is taken out again. -/
theorem insertRoot_eq {h : Nodes} {A B : Forest} {u v : Tree}
    (hv : ∀ w ∈ u :: B, h.hasSmallestTerminal w.ptr v.ptr = true ↔ w.least < v.least) (hlt : u.least < v.least) :
    ((A ++ u :: B).map Tree.ptr).insertIdx (lowerBound h ((A ++ u :: B).map Tree.ptr) A.length v.ptr) v.ptr =
        (A ++ insertRoot v (u :: B)).map Tree.ptr ∧
      ∀ w : Tree, (((A ++ insertRoot v (u :: B)).map Tree.ptr).set A.length w.ptr).eraseIdx
        (lowerBound h ((A ++ u :: B).map Tree.ptr) A.length v.ptr) = (A ++ w :: B).map Tree.ptr := by
  have hins := insertIdx_lowerBound (h := h) (A.map Tree.ptr) hv
  rw [List.length_map, ← List.map_append, ← List.map_append] at hins
  have hlb : A.length < lowerBound h ((A ++ u :: B).map Tree.ptr) A.length v.ptr := by
    refine lt_lowerBound (by simp) ?_
    rw [(List.getElem?_eq_some_iff.1 (show ((A ++ u :: B).map Tree.ptr)[A.length]? = some u.ptr by simp)).2]
    exact (hv u (List.mem_cons_self ..)).2 hlt
  refine ⟨hins, fun w => ?_⟩
  rw [← hins, eraseIdx_set_insertIdx _ hlb]
  simp

/-- The roots after the cut, from the trees after it. -/
theorem insertRoots_eq {h : Nodes} {A B : Forest} {c rest : Tree}
    (hc : ∀ u ∈ rest :: B, h.hasSmallestTerminal u.ptr c.ptr = true ↔ u.least < c.least)
    (hr : ∀ u ∈ c :: B, h.hasSmallestTerminal u.ptr rest.ptr = true ↔ u.least < rest.least)
    (hne : c.least ≠ rest.least) :
    (DeleteEdgeAction.insertRoots h ((A ++ rest :: B).map Tree.ptr) rest.ptr c.ptr A.length).2 =
        (A ++ if rest.least < c.least then insertRoot c (rest :: B) else insertRoot rest (c :: B)).map Tree.ptr ∧
      (((DeleteEdgeAction.insertRoots h ((A ++ rest :: B).map Tree.ptr) rest.ptr c.ptr A.length).2.set A.length
        rest.ptr).eraseIdx
          (DeleteEdgeAction.insertRoots h ((A ++ rest :: B).map Tree.ptr) rest.ptr c.ptr A.length).1) =
        (A ++ rest :: B).map Tree.ptr := by
  unfold DeleteEdgeAction.insertRoots
  by_cases hlt : rest.least < c.least
  · obtain ⟨hins, hback⟩ := insertRoot_eq (A := A) hc hlt
    rw [if_pos ((hc rest (List.mem_cons_self ..)).2 hlt), if_pos hlt]
    dsimp only
    rw [hins]
    exact ⟨rfl, hback rest⟩
  · obtain ⟨hins, hback⟩ := insertRoot_eq (A := A) hr (lt_of_le_of_ne (not_lt.1 hlt) hne)
    have hset : ((A ++ rest :: B).map Tree.ptr).set A.length c.ptr = (A ++ c :: B).map Tree.ptr := by simp
    rw [if_neg fun hs => hlt ((hc rest (List.mem_cons_self ..)).1 hs), if_neg hlt]
    dsimp only
    rw [hset, hins]
    exact ⟨rfl, hback rest⟩

/-- What `deleteEdge_restores` says of one node. -/
structure Cut (width fuel : ℕ) (s : Store) (F : Forest) (c : Tree) (act : DeleteEdgeAction) (s' : Store)
    (F' : Forest) : Prop where
  done : DeleteEdgeAction.doAction fuel c.ptr s = some (act, s')
  cut : F.deleteEdge c = some F'
  wellFormed : F'.WellFormed width s'
  labelToTerminal : s'.labelToTerminal = s.labelToTerminal
  terminalToLabel : s'.terminalToLabel = s.terminalToLabel
  undone : DeleteEdgeAction.undoAction fuel act s' = some s

/-- Cutting an edge keeps the terminals within the width. -/
theorem within_deleteEdge (hF : F.WellFormed width s) {c : Tree} {F' : Forest} (hdel : F.deleteEdge c = some F') :
    ∀ u ∈ F', Within width u.subtreeTerminals := by
  obtain ⟨t, ht, rest, hdet, hperm, -⟩ := deleteEdge_spec hF.valid hdel
  intro u hu
  obtain ⟨-, hterm, -⟩ := Tree.detach_spec (hF.valid.tree t ht) hdet
  rcases List.mem_cons.1 (hperm.subset (List.mem_cons_of_mem _ hu)) with rfl | hu
  · exact (hF.within t ht).mono (hterm ▸ Finset.sdiff_subset)
  rcases List.mem_cons.1 hu with rfl | hu
  · exact (hF.within t ht).mono
      (Tree.subtreeTerminals_subset_of_mem_subtrees (Tree.mem_subtrees_of_detach hdet).1)
  · exact hF.within u hu

/-- The index of a root. -/
theorem idxOf_root (hF : F.WellFormed width s) {A B : Forest} {t : Tree} (hsplit : F = A ++ t :: B) :
    t.ptr ∈ s.roots ∧ s.roots.idxOf t.ptr = A.length := by
  have hA : t.ptr ∉ A.map Tree.ptr := by
    intro hmem
    obtain ⟨u, hu, he⟩ := List.mem_map.1 hmem
    refine (notMem_of_split (hsplit ▸ hF.valid.nodup)).2 u (List.mem_append_left _ hu) u.ptr
      (Tree.ptr_mem_ptrs (Tree.mem_subtrees_self u)) ?_
    exact he ▸ Tree.ptr_mem_ptrs (Tree.mem_subtrees_self t)
  rw [hF.stored.roots, hsplit, List.map_append, List.map_cons]
  refine ⟨by simp, ?_⟩
  rw [List.idxOf_append_of_notMem hA, List.idxOf_cons_self, List.length_map, Nat.add_zero]

/-- The words of two trees of a stored forest compare as their smallest labels. -/
theorem hasSmallestTerminal_iff (hF : F.Valid) (hw : ∀ t ∈ F, Within width t.subtreeTerminals) {h : Nodes}
    (hst : ∀ t ∈ F, t.Stored width h none none) {u v : Tree} (hu : u ∈ F) (hv : v ∈ F)
    (hd : Disjoint u.subtreeTerminals v.subtreeTerminals) :
    h.hasSmallestTerminal u.ptr v.ptr = true ↔ u.least < v.least :=
  Tree.hasSmallestTerminal_iff (hst u hu).words (hst v hv).words (hF.tree u hu) (hF.tree v hv) hd (hw u hu) (hw v hv)

/-- The tree that is cut is a child of its root: both children become roots. -/
theorem deleteEdge_root {A B : Forest} {c a b S : Tree} {p : Ptr} (hA : ∀ u ∈ A, u.detach c = none)
    (hpt : a = c ∧ b = S ∨ a = S ∧ b = c) (hne : c ≠ S) :
    (Tree.node p a b).detach c = some S ∧
      (A ++ Tree.node p a b :: B).deleteEdge c = some (A ++ insertRoot b (a :: B)) := by
  have hdet : (Tree.node p a b).detach c = some S := by
    unfold Tree.detach
    rcases hpt with ⟨rfl, rfl⟩ | ⟨rfl, rfl⟩
    · rw [if_pos rfl]
    · rw [if_neg hne.symm, if_pos rfl]
  refine ⟨hdet, ?_⟩
  rw [deleteEdge_append hA, deleteEdge, hdet]
  dsimp only
  rw [if_pos (hpt.imp And.left And.right)]
  rfl

/-- The left child of a root and the roots behind it compare with the right child as
their smallest labels. -/
theorem hasSmallestTerminal_right (hF : F.WellFormed width s) {A B : Forest} {a b : Tree} {p : Ptr}
    (hsplit : F = A ++ Tree.node p a b :: B) :
    ∀ u ∈ a :: B, s.nodes.hasSmallestTerminal u.ptr b.ptr = true ↔ u.least < b.least := by
  have htF : Tree.node p a b ∈ F := hsplit ▸ by simp
  have hv := hF.valid.tree _ htF
  have hw := hF.within _ htF
  obtain ⟨-, -, hsa, hsb⟩ := (hF.stored.trees _ htF).children (Tree.mem_subtrees_self _)
  intro u hu
  rcases List.mem_cons.1 hu with rfl | hu
  · exact Tree.hasSmallestTerminal_iff hsa.words hsb.words hv.1 hv.2.1 hv.2.2.1
      (hw.mono Finset.subset_union_left) (hw.mono Finset.subset_union_right)
  · have huF : u ∈ F := hsplit ▸ by simp [hu]
    have hdis := hF.valid.disjoint
    rw [hsplit, List.pairwise_append, List.pairwise_cons] at hdis
    exact Tree.hasSmallestTerminal_iff (hF.stored.trees u huF).words hsb.words (hF.valid.tree u huF) hv.2.1
      ((hdis.2.1.1 u hu).symm.mono_right Finset.subset_union_right) (hF.within u huF)
      (hw.mono Finset.subset_union_right)

/-- The cut below a root. -/
theorem exists_cut_root (hF : F.WellFormed width s) {A B : Forest} {c a b S : Tree} {p : Ptr}
    (hsplit : F = A ++ Tree.node p a b :: B) (hpt : a = c ∧ b = S ∨ a = S ∧ b = c)
    (hA : ∀ u ∈ A, u.detach c = none) (fuel : ℕ) : ∃ act s' F', Cut width fuel s F c act s' F' := by
  have htF : Tree.node p a b ∈ F := hsplit ▸ by simp
  have hst := hF.stored.trees _ htF
  have hv := hF.valid.tree _ htF
  have hn := (List.nodup_flatMap.1 hF.valid.nodup).1 _ htF
  have hpair := hst.pair hn (Tree.mem_subtrees_self _) hpt
  have hne : c ≠ S := fun he => hpair.ne (congrArg Tree.ptr he)
  have hP : (Tree.node p a b).pathTo c = some [Tree.node p a b] := by
    unfold Tree.pathTo
    rw [if_pos (hpt.imp And.left And.right)]
  have hct := (Tree.mem_of_mem_pathTo hP).1
  obtain ⟨hpl, hpr, -⟩ := hst.children (Tree.mem_subtrees_self _)
  obtain ⟨hdet, hdel⟩ := deleteEdge_root (B := B) (p := p) hA hpt hne
  rw [← hsplit] at hdel
  -- the memory after the writes
  have hnodes := DeleteEdgeAction.relink_relink_apply s.nodes hpair.ne none none none none
  have hspliced := hpair.spliced_root hst (encode width c.subtreeTerminals)
  set nodes' := (((s.nodes.setSibling S.ptr none).setParent S.ptr none).setSibling c.ptr none).setParent
    c.ptr none
  have hrest := (Tree.Stored.detach hpt hne hP none none S rfl hv hn (hF.within _ htF) hst hdet hspliced).1
  have hcleared := hpair.cleared (Tree.nodup_of_mem_subtrees hct hn) hspliced
    (Tree.ptrs_subset_of_mem_subtrees hct) (List.mem_singleton_self p) (fun _ => Tree.notMem_pathTo hn hP)
    ((hnodes c.ptr).trans (if_pos rfl))
  have hSm : S.ptr ∈ (Tree.node p a b).ptrs := by
    rcases hpt with ⟨-, rfl⟩ | ⟨rfl, -⟩
    · simp [Tree.ptr_mem_ptrs (Tree.mem_subtrees_self b)]
    · simp [Tree.ptr_mem_ptrs (Tree.mem_subtrees_self a)]
  have htrees := Stored.deleteEdge hF hsplit hdel hdet hrest hcleared fun x hx => by
    rw [hnodes, if_neg fun he : x = c.ptr => hx (he ▸ Tree.ptr_mem_ptrs hct),
      if_neg fun he : x = S.ptr => hx (he ▸ hSm)]
  -- the order of the roots
  obtain ⟨hroot, hidx⟩ := idxOf_root hF hsplit
  obtain ⟨hins, hback⟩ := insertRoot_eq (A := A) (hasSmallestTerminal_right hF hsplit) hv.2.2.2
  have hroots : s.roots = (A ++ Tree.node p a b :: B).map Tree.ptr := hsplit ▸ hF.stored.roots
  have hset : s.roots.set A.length a.ptr = (A ++ a :: B).map Tree.ptr := by simp [hroots]
  refine ⟨⟨c.ptr, S.ptr, p, a.ptr, b.ptr, true, A.length, lowerBound s.nodes ((A ++ a :: B).map Tree.ptr)
    A.length b.ptr⟩, ⟨nodes', (A ++ insertRoot b (a :: B)).map Tree.ptr, s.labelToTerminal, s.terminalToLabel⟩,
    A ++ insertRoot b (a :: B), ?_, hdel, ⟨hF.valid.deleteEdge hdel, within_deleteEdge hF hdel, rfl, htrees⟩, rfl,
    rfl, ?_⟩
  · have hdo : DeleteEdgeAction.doParentIsRoot c.ptr S.ptr a.ptr b.ptr A.length s =
        (lowerBound s.nodes ((A ++ a :: B).map Tree.ptr) A.length b.ptr,
          ⟨nodes', (A ++ insertRoot b (a :: B)).map Tree.ptr, s.labelToTerminal, s.terminalToLabel⟩) := by
      rw [DeleteEdgeAction.doParentIsRoot, hset, hins]
    rw [DeleteEdgeAction.doAction, hpair.child.root]
    rw [Tree.ptr_node] at hroot hidx
    simp only [Tree.record, Option.bind_eq_bind, Option.bind_some, hpl, hpr, if_pos hroot, hidx, hdo]
  · rw [DeleteEdgeAction.undoAction, if_pos rfl, DeleteEdgeAction.undoParentIsRoot, Option.some.injEq]
    refine Store.ext (funext fun x => ?_) ((hback (Tree.node p a b)).trans hroots.symm) rfl rfl
    dsimp only
    rw [DeleteEdgeAction.relink_relink_apply nodes' hpair.ne, hnodes]
    split_ifs with hxc hxS
    · rw [hxc, hpair.child.root]
      rfl
    · rw [hxS, hpair.sibling.root]
      rfl
    · rfl

/-- The tree that is cut is not a child of its root, so the longer branch of `deleteEdge`. -/
theorem deleteEdge_inner {A B : Forest} {t c rest x y : Tree} {Q : List Tree}
    (hA : ∀ u ∈ A, u.detach c = none) (hP : t.pathTo c = some (x :: y :: Q)) (hdet : t.detach c = some rest) :
    (A ++ t :: B).deleteEdge c =
      some (A ++ if rest.least < c.least then insertRoot c (rest :: B) else insertRoot rest (c :: B)) := by
  rw [deleteEdge_append hA, deleteEdge, hdet]
  cases t with
  | leaf => cases hP
  | node q l r =>
      have hne : ¬(l = c ∨ r = c) := by
        intro h
        unfold Tree.pathTo at hP
        rw [if_pos h] at hP
        cases hP
      dsimp only
      rw [if_neg hne, ← apply_ite some, Option.map_some]

/-- The roots behind the cut tree compare with either part of it as their smallest
labels. -/
theorem hasSmallestTerminal_parts {F' A B G : Forest} {u v : Tree} {H h' : Nodes} (hF' : F'.Valid)
    (hw : ∀ t ∈ F', Within width t.subtreeTerminals) (hst : ∀ t ∈ F', t.Stored width h' none none)
    (hwords : ∀ x, (H x).subtreeTerminals = (h' x).subtreeTerminals) (hsplit : F' = A ++ G)
    (hG : G.Perm (u :: v :: B)) :
    ∀ w ∈ u :: B, H.hasSmallestTerminal w.ptr v.ptr = true ↔ w.least < v.least := by
  intro w hw'
  have hmem : ∀ x ∈ u :: v :: B, x ∈ F' := fun x hx => hsplit ▸ List.mem_append_right _ (hG.symm.subset hx)
  have hdis := (hsplit ▸ hF'.disjoint : (A ++ G).Pairwise _)
  have hdis := hG.pairwise (List.pairwise_append.1 hdis).2.1 fun h => h.symm
  rw [List.pairwise_cons, List.pairwise_cons] at hdis
  rw [hasSmallestTerminal_congr hwords]
  rcases List.mem_cons.1 hw' with rfl | hw'
  · exact hasSmallestTerminal_iff hF' hw hst (hmem w (by simp)) (hmem v (by simp)) (hdis.1 v (List.mem_cons_self ..))
  · exact hasSmallestTerminal_iff hF' hw hst (hmem w (by simp [hw'])) (hmem v (by simp)) (hdis.2.1 w hw').symm

/-- The two parts of the cut tree have different smallest labels. -/
theorem least_detach_ne {t c rest : Tree} (hv : t.Valid) (hdet : t.detach c = some rest) : c.least ≠ rest.least := by
  obtain ⟨-, hterm, -⟩ := Tree.detach_spec hv hdet
  intro he
  have hrest := Tree.labels_subset_subtreeTerminals rest rest.least_mem_labels
  rw [hterm, ← he, Finset.mem_sdiff] at hrest
  exact hrest.2 (Tree.labels_subset_subtreeTerminals c c.least_mem_labels)

/-- The cut further down. -/
theorem exists_cut_inner (hF : F.WellFormed width s) {A B : Forest} {t c a b S gt : Tree} {p : Ptr} {Q : List Tree}
    (hsplit : F = A ++ t :: B) (hP : t.pathTo c = some (Tree.node p a b :: gt :: Q))
    (hpt : a = c ∧ b = S ∨ a = S ∧ b = c) (hA : ∀ u ∈ A, u.detach c = none) {fuel : ℕ}
    (hfuel : (Tree.node p a b :: gt :: Q).length ≤ fuel) : ∃ act s' F', Cut width fuel s F c act s' F' := by
  have htF : t ∈ F := hsplit ▸ by simp
  have hst := hF.stored.trees _ htF
  have hv := hF.valid.tree _ htF
  have hw := hF.within _ htF
  have hn := (List.nodup_flatMap.1 hF.valid.nodup).1 t htF
  obtain ⟨U, hUt, ha⟩ := Tree.exists_around hst hn hP hpt
  obtain ⟨hct, hup⟩ := Tree.mem_of_mem_pathTo hP
  have hp : Tree.node p a b ∈ t.subtrees := (hup _ (List.mem_cons_self ..)).1
  have hpair := hst.pair hn hp hpt
  have htP : t ∈ Tree.node p a b :: gt :: Q := by
    obtain ⟨R, hR⟩ := Tree.pathTo_last hP
    rw [hR]
    simp
  obtain ⟨hpl, hpr, -⟩ := hst.children hp
  obtain ⟨rest, hdet⟩ := Tree.exists_detach hct (Tree.ne_of_mem_pathTo hP t htP).symm
  have hdel := deleteEdge_inner (B := B) hA hP hdet
  rw [← hsplit] at hdel
  set F' := A ++ if rest.least < c.least then insertRoot c (rest :: B) else insertRoot rest (c :: B) with hF'
  -- the memory after all writes
  set H := Nodes.sortAll (p :: gt.ptr :: Q.map Tree.ptr) (Nodes.addLabels (· ^^^ ·)
    (encode width c.subtreeTerminals) (p :: gt.ptr :: Q.map Tree.ptr)
    (DeleteEdgeAction.spliceOut s.nodes p S.ptr gt.ptr U.ptr)) with hH
  set h₃ := (H.setSibling c.ptr none).setParent c.ptr none with hh₃
  obtain ⟨hS, hc₃, hoff, hpath⟩ := ha.spliced hst hn rfl hP hpt hH hh₃
  obtain ⟨hrest, hptr, -⟩ := Tree.Stored.detach hpt (fun he => hpair.ne (congrArg Tree.ptr he)) hP none none rest rfl
    hv hn hw hst hdet hS
  have hcleared := hpair.cleared (Tree.nodup_of_mem_subtrees hct hn) hS (Tree.ptrs_subset_of_mem_subtrees hct)
    (List.mem_cons_self ..) (fun _ => Tree.notMem_pathTo hn hP) hc₃
  have htrees := Stored.deleteEdge hF hsplit hdel hdet hrest hcleared hoff
  have hval := hF.valid.deleteEdge hdel
  have hwithin := within_deleteEdge hF hdel
  -- the order of the roots
  obtain ⟨hroot, hidx⟩ := idxOf_root hF hsplit
  have hproot : p ∉ s.roots := by
    rw [hF.stored.roots]
    intro hmem
    obtain ⟨u, hu, he⟩ := List.mem_map.1 hmem
    have hpar := (hF.stored.trees u hu).root
    rw [he, ha.parent] at hpar
    cases congrArg Node.parent hpar
  have hwords : ∀ x, (H x).subtreeTerminals = (h₃ x).subtreeTerminals := by
    intro x
    rw [hh₃, DeleteEdgeAction.relink_apply]
    split_ifs <;> rfl
  have hperm : (if rest.least < c.least then insertRoot c (rest :: B) else insertRoot rest (c :: B)).Perm
      (rest :: c :: B) := by
    split_ifs
    · exact (perm_insertRoot c _).trans (List.Perm.swap ..)
    · exact perm_insertRoot rest _
  have hrt : rest.ptr = t.ptr := hptr fun he => hproot (by rwa [he, Tree.ptr_node] at hroot)
  have hroots : s.roots = (A ++ rest :: B).map Tree.ptr := by
    rw [hF.stored.roots, hsplit, List.map_append, List.map_append, List.map_cons, List.map_cons, hrt]
  obtain ⟨hins, hback⟩ := insertRoots_eq (A := A)
    (hasSmallestTerminal_parts hval hwithin htrees hwords hF' hperm)
    (hasSmallestTerminal_parts hval hwithin htrees hwords hF' (hperm.trans (List.Perm.swap ..)))
    (least_detach_ne hv hdet)
  rw [← hroots, hrt] at hins hback
  obtain ⟨rightIndex, roots', hir⟩ : ∃ i roots', DeleteEdgeAction.insertRoots H s.roots t.ptr c.ptr A.length =
      (i, roots') := ⟨_, _, rfl⟩
  rw [hir] at hins hback
  obtain rfl : roots' = F'.map Tree.ptr := hins
  refine ⟨⟨c.ptr, S.ptr, p, a.ptr, b.ptr, false, A.length, rightIndex⟩,
    ⟨h₃, F'.map Tree.ptr, s.labelToTerminal, s.terminalToLabel⟩, F', ?_, hdel, ⟨hval, hwithin, rfl, htrees⟩, rfl,
    rfl, ?_⟩
  · have hd : (DeleteEdgeAction.spliceOut s.nodes p S.ptr gt.ptr U.ptr c.ptr).subtreeTerminals =
        encode width c.subtreeTerminals := by
      rw [DeleteEdgeAction.spliceOut_apply ha.distinct.2.2.2]
      exact hpair.child.words
    have hclimb := ha.propagate_eq hst hn rfl hP hpt hfuel (encode width c.subtreeTerminals)
    rw [← hH] at hclimb
    have hdo : DeleteEdgeAction.doParentIsInner fuel c.ptr S.ptr p s = some (A.length, rightIndex,
        ⟨h₃, F'.map Tree.ptr, s.labelToTerminal, s.terminalToLabel⟩) := by
      rw [DeleteEdgeAction.doParentIsInner, ha.parent]
      simp only [Tree.record, Option.bind_eq_bind, Option.bind_some, hd, hclimb, if_pos hroot, hidx, hir]
      rfl
    rw [DeleteEdgeAction.doAction, hpair.child.root]
    simp only [Tree.record, Option.bind_eq_bind, Option.bind_some, hpl, hpr, if_neg hproot, hdo]
  · obtain ⟨hpar, hsib, hclimb⟩ := ha.restore hst hv hn hw rfl hP hpt hS hc₃ hoff hpath hfuel
    rw [DeleteEdgeAction.undoAction, if_neg Bool.false_ne_true, DeleteEdgeAction.undoParentIsInner]
    simp only [hpar, hsib, Option.bind_eq_bind, Option.bind_some, hclimb, Option.some.injEq]
    exact Store.ext rfl hback rfl rfl

/-- **Every node with a parent can be cut off, and put back.** -/
theorem exists_cut (hF : F.WellFormed width s) {fuel : ℕ} (hfuel : F.ptrs.length ≤ fuel) {c : Tree}
    (hc : c ∈ F.subtrees) (hroot : c ∉ F) : ∃ act s' F', Cut width fuel s F c act s' F' := by
  obtain ⟨A, t, B, p, a, b, S, Q, rfl, hP, hpt, hA⟩ := exists_location hF.valid hc hroot
  cases Q with
  | nil =>
      obtain ⟨R, hR⟩ := Tree.pathTo_last hP
      obtain rfl : R = [] := by simpa using congrArg List.length hR
      obtain rfl : Tree.node p a b = t := List.singleton_injective hR
      exact exists_cut_root hF rfl hpt hA fuel
  | cons gt Q =>
      refine exists_cut_inner hF rfl hP hpt hA (le_trans ?_ hfuel)
      have hn := hF.valid.nodup
      rw [ptrs, List.flatMap_append, List.flatMap_cons] at hn ⊢
      have hnt := (List.nodup_append.1 (List.nodup_append.1 hn).2.1).1
      have hsub : (Tree.node p a b :: gt :: Q).map Tree.ptr ⊆ t.ptrs := fun x hx => by
        obtain ⟨u, hu, rfl⟩ := List.mem_map.1 hx
        exact Tree.ptr_mem_of_mem_pathTo hP hu
      have := ((Tree.nodup_pathTo hP hnt).subperm hsub).length_le
      simp only [List.length_append, List.length_map] at this ⊢
      omega

/-- A cut takes the parent out of the forest. -/
theorem length_ptrs_deleteEdge (hF : F.Valid) {c : Tree} {F' : Forest} (hdel : F.deleteEdge c = some F') :
    F'.ptrs.length + 1 = F.ptrs.length := by
  obtain ⟨t, rest, G, hG, hperm, hdet⟩ := perm_deleteEdge hF hdel
  obtain ⟨p, -, -, -, -, hptr⟩ := Tree.ptrs_detach hdet
  have h₁ := (ptrs_perm hperm).length_eq
  have h₂ := (ptrs_perm hG).length_eq
  have h₃ := hptr.length_eq
  simp only [ptrs, List.flatMap_cons, List.length_append, List.length_cons] at h₁ h₂ h₃ ⊢
  omega

/-- Cuts one after another, at the given addresses. -/
def deleteEdges : List Ptr → Forest → Option Forest
  | [], F => some F
  | p :: ps, F => do
      let c ← F.nodeAt p
      let F' ← F.deleteEdge c
      deleteEdges ps F'

end Forest

namespace Graph.DeleteEdgeAction

/-- The actions at the given addresses, one after another. -/
def doAll (fuel : ℕ) : List Ptr → Store → Option (List DeleteEdgeAction × Store)
  | [], s => some ([], s)
  | p :: ps, s => do
      let (a, s₁) ← doAction fuel p s
      let (as, s₂) ← doAll fuel ps s₁
      some (a :: as, s₂)

/-- The actions undone, the last one first. -/
def undoAll (fuel : ℕ) : List DeleteEdgeAction → Store → Option Store
  | [], s => some s
  | a :: as, s => do
      let s₁ ← undoAll fuel as s
      undoAction fuel a s₁

end Graph.DeleteEdgeAction

namespace Forest

variable {width : ℕ} {s : Store} {F : Forest}

/-- The cuts of `deleteEdges` in memory, and all of them undone. -/
theorem WellFormed.doAll {fuel : ℕ} (hF : F.WellFormed width s) (hfuel : F.ptrs.length ≤ fuel) {ps : List Ptr}
    {F' : Forest} (h : F.deleteEdges ps = some F') : ∃ acts s', DeleteEdgeAction.doAll fuel ps s = some (acts, s') ∧
      F'.WellFormed width s' ∧ DeleteEdgeAction.undoAll fuel acts s' = some s := by
  induction ps generalizing F s with
  | nil =>
      obtain rfl := Option.some.inj h
      exact ⟨[], s, rfl, hF, rfl⟩
  | cons p ps ih =>
      obtain ⟨c, hc, h⟩ := Option.bind_eq_some_iff.1 h
      obtain ⟨F₁, hdel, h⟩ := Option.bind_eq_some_iff.1 h
      obtain rfl : c.ptr = p := by simpa using List.find?_some hc
      obtain ⟨hmem, hroot⟩ := mem_of_deleteEdge hF.valid hdel
      obtain ⟨a, s₁, F₁', hcut⟩ := exists_cut hF hfuel hmem hroot
      obtain rfl : F₁' = F₁ := Option.some.inj (hcut.cut.symm.trans hdel)
      have hlen := length_ptrs_deleteEdge hF.valid hdel
      obtain ⟨acts, s', hdo, hF', hundo⟩ := ih hcut.wellFormed (by omega) h
      refine ⟨a :: acts, s', ?_, hF', ?_⟩
      · rw [DeleteEdgeAction.doAll, hcut.done]
        simp only [Option.bind_eq_bind, Option.bind_some, hdo]
      · rw [DeleteEdgeAction.undoAll, hundo]
        exact hcut.undone

/-- **`DeleteEdgeAction` cuts off the subtree of a node and puts it back.**  The
forest in memory becomes one in which the tree of the node is replaced by the node
and by what remains of the tree, and `undoAction` restores all of the memory; so
does undoing any list of actions in reverse order. -/
theorem deleteEdge_restores {fuel : ℕ} (hF : F.WellFormed width s) (hfuel : F.ptrs.length ≤ fuel) :
    (∀ v ∈ F.subtrees, v ∉ F → ∃ (act : DeleteEdgeAction) (s' : Store) (F' : Forest) (t rest : Tree)
      (others : Forest),
      DeleteEdgeAction.doAction fuel v.ptr s = some (act, s') ∧ F'.WellFormed width s' ∧
      v ∈ t.subtrees ∧ F.Perm (t :: others) ∧ F'.Perm (v :: rest :: others) ∧
      rest.labels = t.labels \ v.labels ∧ rest.subtreeTerminals = t.subtreeTerminals \ v.subtreeTerminals ∧
      rest.clusters = trace t.clusters (t.labels \ v.labels) ∧ s'.roots.length = s.roots.length + 1 ∧
      s'.labelToTerminal = s.labelToTerminal ∧ s'.terminalToLabel = s.terminalToLabel ∧
      DeleteEdgeAction.undoAction fuel act s' = some s) ∧
    ∀ ps F', F.deleteEdges ps = some F' → ∃ acts s', DeleteEdgeAction.doAll fuel ps s = some (acts, s') ∧
      F'.WellFormed width s' ∧ DeleteEdgeAction.undoAll fuel acts s' = some s := by
  refine ⟨fun v hv hroot => ?_, fun ps F' h => hF.doAll hfuel h⟩
  obtain ⟨act, s', F', hcut⟩ := exists_cut hF hfuel hv hroot
  obtain ⟨t, rest, others, hperm, hperm', hdet⟩ := perm_deleteEdge hF.valid hcut.cut
  have ht := hF.valid.tree t (hperm.symm.subset (List.mem_cons_self ..))
  obtain ⟨-, hterm, hlab, -⟩ := Tree.detach_spec ht hdet
  refine ⟨act, s', F', t, rest, others, hcut.done, hcut.wellFormed, (Tree.mem_subtrees_of_detach hdet).1, hperm,
    hperm'.trans (List.Perm.swap ..), hlab, hterm, Tree.clusters_detach ht hdet, ?_, hcut.labelToTerminal,
    hcut.terminalToLabel, hcut.undone⟩
  rw [hcut.wellFormed.stored.roots, hF.stored.roots, List.length_map, List.length_map]
  exact length_deleteEdge hF.valid hcut.cut

/-- `(1,(2,3))` without its second leaf, and back. -/
theorem deleteEdge_restores_caterpillar :
    ∃ act s', DeleteEdgeAction.doAction 5 1
        (toStore 1 [.node 3 (.leaf 0 1 ∅) (.node 4 (.leaf 1 2 ∅) (.leaf 2 3 ∅))]) = some (act, s') ∧
      s'.roots.length = 2 ∧ DeleteEdgeAction.undoAction 5 act s' =
        some (toStore 1 [.node 3 (.leaf 0 1 ∅) (.node 4 (.leaf 1 2 ∅) (.leaf 2 3 ∅))]) := by
  have hF : WellFormed 1 (toStore 1 [.node 3 (.leaf 0 1 ∅) (.node 4 (.leaf 1 2 ∅) (.leaf 2 3 ∅))])
      [.node 3 (.leaf 0 1 ∅) (.node 4 (.leaf 1 2 ∅) (.leaf 2 3 ∅))] :=
    toStore_wellFormed (by decide) (by decide)
  obtain ⟨act, s', F', t, rest, others, hdo, -, -, -, -, -, -, -, hlen, -, -, hundo⟩ :=
    (deleteEdge_restores hF (show _ ≤ 5 by decide)).1 (.leaf 1 2 ∅) (by decide) (by decide)
  exact ⟨act, s', hdo, hlen, hundo⟩

end Forest

end Maf
