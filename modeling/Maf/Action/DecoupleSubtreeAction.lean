/-
# Decoupling a subtree

`src/Solver/Action/DecoupleSubtreeAction.cpp` with all its writes.  `doAction`
copies the decoupling point into a node of its own, puts a root and an artificial
sibling on top of the copy and leaves the point behind as a terminal with a new
label; `undoAction` finds the point by that label and merges it with the sibling of
the artificial terminal, or forgets both when that sibling was cut off.

`doAction` takes the labels of the subtree out of all words up to the root and the
new label in, but `undoWithSubtreeRoot` gives back the labels of the subtree only:
the new label stays in the words of the decoupling point and of every node above it
(`undoAction_doAction`), so that no forest is restored
(`decoupleSubtree_not_restored`).
-/

import Maf.Action.DeleteEdgeInMemory

namespace Maf

open Bitset (encode Within)
open Graph

namespace Graph

/-- `DecoupleSubtreeAction`: the decoupling point, the addresses of the three nodes
of the action and the two new labels. -/
structure DecoupleSubtreeAction where
  decouplingPoint : Ptr
  decoupledSubtreeRoot : Ptr
  decoupledSubtreeVirtualSibling : Ptr
  decoupledSubtreeVirtualRoot : Ptr
  newLabelParentTree : Label
  newLabelSubtree : Label

namespace DecoupleSubtreeAction

/-- `node->parent = parent` for a child that may be missing. -/
def setParentOf (h : Nodes) (child : Option Ptr) (parent : Ptr) : Nodes :=
  match child with
  | none => h
  | some c => h.setParent c (some parent)

/-- The writes of `doAction` that build the root part and take the children from the
decoupling point. -/
def buildRoot (a : DecoupleSubtreeAction) (h : Nodes) : Nodes :=
  let n := h a.decouplingPoint
  let h₁ := h.modify a.decoupledSubtreeRoot fun _ => { n with
    parent := some a.decoupledSubtreeVirtualRoot
    sibling := some a.decoupledSubtreeVirtualSibling }
  let h₂ := setParentOf (setParentOf h₁ n.leftChild a.decoupledSubtreeRoot) n.rightChild a.decoupledSubtreeRoot
  let h₃ := h₂.modify a.decoupledSubtreeVirtualSibling fun _ =>
    { parent := some a.decoupledSubtreeVirtualRoot
      sibling := some a.decoupledSubtreeRoot
      subtreeTerminals := Bitset.single n.subtreeTerminals.length a.newLabelSubtree }
  let h₄ := h₃.modify a.decoupledSubtreeVirtualRoot fun _ =>
    { leftChild := some a.decoupledSubtreeRoot
      rightChild := some a.decoupledSubtreeVirtualSibling
      subtreeTerminals := Bitset.toggle n.subtreeTerminals a.newLabelSubtree }
  (h₄.setLeftChild a.decouplingPoint none).setRightChild a.decouplingPoint none

/-- `xorLabelPropagation`. -/
def xorLabelPropagation (fuel : ℕ) (labels : List Bitset.Word) (start : Ptr) (h : Nodes) : Option Nodes :=
  (h.propagate (· ^^^ ·) labels true fuel start (some start)).map Prod.snd

/-- `doAction`; `none` where an iterator at the end is read. -/
def doAction (fuel : ℕ) (a : DecoupleSubtreeAction) (s : Store) : Option Store := do
  let bitmask := Bitset.toggle (s.nodes a.decouplingPoint).subtreeTerminals a.newLabelParentTree
  let h ← xorLabelPropagation fuel bitmask a.decouplingPoint (a.buildRoot s.nodes)
  let labelToTerminal := Function.update (Function.update s.labelToTerminal a.newLabelParentTree
    (some a.decouplingPoint)) a.newLabelSubtree (some a.decoupledSubtreeVirtualSibling)
  let terminalToLabel := Function.update (Function.update s.terminalToLabel a.decouplingPoint
    (some a.newLabelParentTree)) a.decoupledSubtreeVirtualSibling (some a.newLabelSubtree)
  let parentTreeRoot ← s.roots.find? fun r =>
    Bitset.hasSubset (h a.decouplingPoint).subtreeTerminals (h r).subtreeTerminals
  let roots := (DeleteEdgeAction.insertRoots h s.roots parentTreeRoot a.decoupledSubtreeVirtualRoot
    (s.roots.idxOf parentTreeRoot)).2
  some ⟨h, roots, labelToTerminal, terminalToLabel⟩

/-- The maps without the two new labels. -/
def eraseLabels (a : DecoupleSubtreeAction) (decouplingPoint : Ptr) (s : Store) : Store :=
  { s with
    labelToTerminal := Function.update (Function.update s.labelToTerminal a.newLabelSubtree none)
      a.newLabelParentTree none
    terminalToLabel := Function.update (Function.update s.terminalToLabel a.decoupledSubtreeVirtualSibling none)
      decouplingPoint none }

/-- The label of the terminal `source` moves to `target`, if there is one. -/
def moveLabel (source target : Ptr) (s : Store) : Store :=
  match s.terminalToLabel source with
  | none => s
  | some label => { s with
      terminalToLabel := Function.update (Function.update s.terminalToLabel source none) target (some label)
      labelToTerminal := Function.update s.labelToTerminal label (some target) }

/-- `undoWithSubtreeRoot`; an exception, or a read at the end, gives `none`. -/
def undoWithSubtreeRoot (fuel : ℕ) (a : DecoupleSubtreeAction) (decouplingPoint subtreePartRoot : Ptr)
    (s : Store) : Option Store := do
  if (s.nodes subtreePartRoot).sibling ≠ some a.decoupledSubtreeVirtualSibling then none
  else if (s.nodes a.decoupledSubtreeVirtualSibling).parent ≠ some a.decoupledSubtreeVirtualRoot ∨
      (s.nodes subtreePartRoot).parent ≠ some a.decoupledSubtreeVirtualRoot ∨
      (s.nodes a.decoupledSubtreeVirtualRoot).leftChild ≠ some subtreePartRoot ∨
      (s.nodes a.decoupledSubtreeVirtualRoot).rightChild ≠ some a.decoupledSubtreeVirtualSibling then none
  else
    let parentTreeRoot ← s.roots.find? fun r => Bitset.mem (s.nodes r).subtreeTerminals a.newLabelParentTree
    if a.decoupledSubtreeVirtualRoot ∉ s.roots then none
    else
      let subtreeRootIndex := s.roots.idxOf a.decoupledSubtreeVirtualRoot
      let roots :=
        if s.nodes.hasSmallestTerminal parentTreeRoot subtreePartRoot then s.roots.eraseIdx subtreeRootIndex
        else (s.roots.eraseIdx (s.roots.idxOf parentTreeRoot)).set subtreeRootIndex parentTreeRoot
      let s := moveLabel subtreePartRoot decouplingPoint (a.eraseLabels decouplingPoint { s with roots := roots })
      let h ← xorLabelPropagation fuel (s.nodes subtreePartRoot).subtreeTerminals decouplingPoint s.nodes
      let n := h subtreePartRoot
      let h := (h.setLeftChild decouplingPoint n.leftChild).setRightChild decouplingPoint n.rightChild
      some { s with
        nodes := setParentOf (setParentOf h n.leftChild decouplingPoint) n.rightChild decouplingPoint }

/-- `undoWithoutSubtreeRoot`. -/
def undoWithoutSubtreeRoot (fuel : ℕ) (a : DecoupleSubtreeAction) (decouplingPoint : Ptr) (s : Store) :
    Option Store := do
  if a.decoupledSubtreeVirtualRoot ∈ s.roots then none
  else
    let s ← if (s.nodes decouplingPoint).parent = none then some s
      else (DeleteEdgeAction.doAction fuel decouplingPoint s).map Prod.snd
    if a.decoupledSubtreeVirtualSibling ∉ s.roots then none
    else
      let roots := s.roots.erase a.decoupledSubtreeVirtualSibling
      if decouplingPoint ∉ roots then none
      else
        let s := a.eraseLabels decouplingPoint { s with roots := roots.erase decouplingPoint }
        let point := s.nodes decouplingPoint
        let root := s.nodes a.decoupledSubtreeRoot
        -- the swap
        let h := (s.nodes.modify decouplingPoint fun _ => root).modify a.decoupledSubtreeRoot fun _ => point
        if a.decoupledSubtreeRoot ∉ s.roots then some { s with nodes := h }
        else
          let h := setParentOf (setParentOf h root.leftChild decouplingPoint) root.rightChild decouplingPoint
          some (moveLabel a.decoupledSubtreeRoot decouplingPoint { s with
            nodes := h
            roots := s.roots.set (s.roots.idxOf a.decoupledSubtreeRoot) decouplingPoint })

/-- `undoAction`. -/
def undoAction (fuel : ℕ) (a : DecoupleSubtreeAction) (s : Store) : Option Store := do
  let decouplingPoint ← s.labelToTerminal a.newLabelParentTree
  if s.labelToTerminal a.newLabelSubtree ≠ some a.decoupledSubtreeVirtualSibling then none
  else if s.terminalToLabel a.decoupledSubtreeVirtualSibling ≠ some a.newLabelSubtree then none
  else
    match (s.nodes a.decoupledSubtreeVirtualSibling).sibling with
    | none => undoWithoutSubtreeRoot fuel a decouplingPoint s
    | some subtreePartRoot => undoWithSubtreeRoot fuel a decouplingPoint subtreePartRoot s

/-- New addresses and new labels, which fit into the words. -/
structure Fresh (a : DecoupleSubtreeAction) (width : ℕ) (F : Forest) : Prop where
  addresses : ∀ q ∈ [a.decoupledSubtreeRoot, a.decoupledSubtreeVirtualSibling, a.decoupledSubtreeVirtualRoot],
    q ∉ F.ptrs
  nodup : [a.decoupledSubtreeRoot, a.decoupledSubtreeVirtualSibling, a.decoupledSubtreeVirtualRoot].Nodup
  labels : ∀ t ∈ F, a.newLabelParentTree ∉ t.subtreeTerminals ∧ a.newLabelSubtree ∉ t.subtreeTerminals
  within : Within width {a.newLabelParentTree, a.newLabelSubtree}
  ne : a.newLabelParentTree ≠ a.newLabelSubtree

/-- The nodes of the action are not among those of the forest. -/
theorem Fresh.ne_of_mem {a : DecoupleSubtreeAction} {width : ℕ} {F : Forest} (ha : a.Fresh width F) {z : Ptr}
    (hz : z ∈ F.ptrs) : z ≠ a.decoupledSubtreeRoot ∧ z ≠ a.decoupledSubtreeVirtualSibling ∧
      z ≠ a.decoupledSubtreeVirtualRoot := by
  refine ⟨?_, ?_, ?_⟩
  · rintro rfl
    exact ha.addresses _ (by simp) hz
  · rintro rfl
    exact ha.addresses _ (by simp) hz
  · rintro rfl
    exact ha.addresses _ (by simp) hz

/-- What `setParentOf` writes. -/
theorem setParentOf_apply (h : Nodes) (child : Option Ptr) (q x : Ptr) :
    setParentOf h child q x = if child = some x then { h x with parent := some q } else h x := by
  cases child with
  | none => rfl
  | some c =>
      rw [setParentOf, Nodes.setParent, Nodes.modify_apply]
      simp only [Option.some.injEq, eq_comm]

/-- Setting a parent leaves the words alone. -/
@[simp] theorem setParentOf_subtreeTerminals (h : Nodes) (child : Option Ptr) (q x : Ptr) :
    (setParentOf h child q x).subtreeTerminals = (h x).subtreeTerminals := by
  rw [setParentOf_apply]
  split_ifs <;> rfl

/-- Setting the children leaves the words alone. -/
theorem setChild_subtreeTerminals (h : Nodes) (p x : Ptr) (c d : Option Ptr) :
    (((h.setLeftChild p c).setRightChild p d) x).subtreeTerminals = (h x).subtreeTerminals := by
  simp only [Nodes.setLeftChild, Nodes.setRightChild, Nodes.modify_apply]
  split_ifs <;> rfl

/-- Moving a label leaves the nodes alone. -/
@[simp] theorem moveLabel_nodes (source target : Ptr) (s : Store) : (moveLabel source target s).nodes = s.nodes := by
  unfold moveLabel
  split <;> rfl

/-- The nodes of the forest after `buildRoot`. -/
theorem buildRoot_old {a : DecoupleSubtreeAction} {h : Nodes} {x : Ptr} (hr : x ≠ a.decoupledSubtreeRoot)
    (hb : x ≠ a.decoupledSubtreeVirtualSibling) (hv : x ≠ a.decoupledSubtreeVirtualRoot)
    (hleft : (h a.decouplingPoint).leftChild ≠ some x) (hright : (h a.decouplingPoint).rightChild ≠ some x) :
    a.buildRoot h x =
      if x = a.decouplingPoint then { h x with leftChild := none, rightChild := none } else h x := by
  simp only [buildRoot, Nodes.setLeftChild, Nodes.setRightChild, Nodes.modify_apply, setParentOf_apply, hr, hb,
    hv, hleft, hright, if_false]
  split_ifs <;> rfl

/-- Building the new root leaves the words of the other nodes alone. -/
theorem buildRoot_subtreeTerminals {a : DecoupleSubtreeAction} {h : Nodes} {x : Ptr}
    (hr : x ≠ a.decoupledSubtreeRoot) (hb : x ≠ a.decoupledSubtreeVirtualSibling)
    (hv : x ≠ a.decoupledSubtreeVirtualRoot) : (a.buildRoot h x).subtreeTerminals = (h x).subtreeTerminals := by
  rw [buildRoot, setChild_subtreeTerminals, Nodes.modify_of_ne _ _ hv, Nodes.modify_of_ne _ _ hb,
    setParentOf_subtreeTerminals, setParentOf_subtreeTerminals, Nodes.modify_of_ne _ _ hr]

/-- The three new nodes after `buildRoot`. -/
theorem buildRoot_new {a : DecoupleSubtreeAction} {h : Nodes}
    (hnew : ∀ q ∈ [a.decoupledSubtreeRoot, a.decoupledSubtreeVirtualSibling, a.decoupledSubtreeVirtualRoot],
      q ≠ a.decouplingPoint ∧ (h a.decouplingPoint).leftChild ≠ some q ∧
        (h a.decouplingPoint).rightChild ≠ some q)
    (hnd : [a.decoupledSubtreeRoot, a.decoupledSubtreeVirtualSibling, a.decoupledSubtreeVirtualRoot].Nodup) :
    a.buildRoot h a.decoupledSubtreeRoot = { h a.decouplingPoint with
        parent := some a.decoupledSubtreeVirtualRoot
        sibling := some a.decoupledSubtreeVirtualSibling } ∧
      (a.buildRoot h a.decoupledSubtreeVirtualSibling).parent = some a.decoupledSubtreeVirtualRoot ∧
      (a.buildRoot h a.decoupledSubtreeVirtualSibling).sibling = some a.decoupledSubtreeRoot ∧
      (a.buildRoot h a.decoupledSubtreeVirtualRoot).leftChild = some a.decoupledSubtreeRoot ∧
      (a.buildRoot h a.decoupledSubtreeVirtualRoot).rightChild = some a.decoupledSubtreeVirtualSibling := by
  simp only [List.nodup_cons, List.mem_cons, List.not_mem_nil, or_false, not_or] at hnd
  obtain ⟨⟨hrb, hrv⟩, hbv, -⟩ := hnd
  obtain ⟨hr, hrl, hrr⟩ := hnew _ (List.mem_cons_self ..)
  obtain ⟨hb, hbl, hbr⟩ := hnew a.decoupledSubtreeVirtualSibling (by simp)
  obtain ⟨hv, hvl, hvr⟩ := hnew a.decoupledSubtreeVirtualRoot (by simp)
  refine ⟨?_, ?_, ?_, ?_, ?_⟩ <;>
    simp only [buildRoot, Nodes.setLeftChild, Nodes.setRightChild, Nodes.modify_apply, setParentOf_apply, hr, hb,
      hv, hrl, hrr, hrb, hrv, hbv, if_true, if_false]

/-- `insertRoots` keeps the root it was given and adds the new one. -/
theorem mem_insertRoots (h : Nodes) {roots : List Ptr} {root : Ptr} (child : Ptr) (hroot : root ∈ roots) :
    child ∈ (DeleteEdgeAction.insertRoots h roots root child (roots.idxOf root)).2 ∧
      root ∈ (DeleteEdgeAction.insertRoots h roots root child (roots.idxOf root)).2 := by
  have hlt := List.idxOf_lt_length_of_mem hroot
  have hle : ∀ {rs : List Ptr} {v : Ptr}, rs.length = roots.length →
      lowerBound h rs (roots.idxOf root) v ≤ rs.length := by
    intro rs v hlen
    have := (List.takeWhile_sublist (l := rs.drop (roots.idxOf root)) fun q =>
      h.hasSmallestTerminal q v).length_le
    rw [List.length_drop] at this
    rw [lowerBound]
    omega
  unfold DeleteEdgeAction.insertRoots
  split_ifs with hs
  · exact ⟨(List.mem_insertIdx (hle rfl)).2 (Or.inl rfl), (List.mem_insertIdx (hle rfl)).2 (Or.inr hroot)⟩
  · have hlen : (roots.set (roots.idxOf root) child).length = roots.length := List.length_set
    exact ⟨(List.mem_insertIdx (hle hlen)).2 (Or.inr (List.mem_set hlt child)),
      (List.mem_insertIdx (hle hlen)).2 (Or.inl rfl)⟩

/-- The nodes from `start` to its root, as `xorLabelPropagation` meets them. -/
structure Chain (start : Ptr) (P : List Ptr) (h : Nodes) : Prop where
  parents : h.ParentChain (some start) P none
  behind : h.ChildrenBehind P
  nodup : P.Nodup

/-- **What `xorLabelPropagation` does to the words**; the chain stays a chain. -/
theorem Chain.xorLabelPropagation {fuel : ℕ} {start : Ptr} {P : List Ptr} {h : Nodes} (hc : Chain start P h)
    (hfuel : P.length ≤ fuel) (d : List Bitset.Word) :
    ∃ h', xorLabelPropagation fuel d start h = some h' ∧ Chain start P h' ∧
      (∀ x ∈ P, (h' x).subtreeTerminals = List.zipWith (· ^^^ ·) (h x).subtreeTerminals d) ∧
      ∀ x ∉ P, h' x = h x := by
  have hclimb : DecoupleSubtreeAction.xorLabelPropagation fuel d start h =
      some (Nodes.sortAll P (Nodes.addLabels (· ^^^ ·) d P h)) := by
    rw [DecoupleSubtreeAction.xorLabelPropagation,
      Nodes.propagate_eq hc.parents hc.nodup hc.behind (Or.inl rfl) hfuel]
    rfl
  refine ⟨_, hclimb, ⟨hc.parents.congr fun x hx => ?_, hc.behind.congr fun x hx y hy => ?_, hc.nodup⟩,
    fun x hx => ?_, fun x hx => ?_⟩
  · rw [Nodes.sortAll_of_mem hx, Nodes.addLabels_of_mem hx, Nodes.withSortedChildren_parent,
      Nodes.withLabels_parent]
  · rw [Nodes.sortAll_of_mem hx, Nodes.addLabels_of_mem hx] at hy
    rcases Nodes.withSortedChildren_children (Nodes.addLabels (· ^^^ ·) d P h)
      (Nodes.withLabels (· ^^^ ·) d (h x)) with ⟨hl, hr⟩ | ⟨hl, hr⟩
    · rwa [hl, hr] at hy
    · rw [hl, hr] at hy
      exact hy.symm
  · rw [Nodes.sortAll_of_mem hx, Nodes.addLabels_of_mem hx, Nodes.withSortedChildren_subtreeTerminals]
    rfl
  · rw [Nodes.sortAll_of_notMem hx, Nodes.addLabels_of_notMem hx]

end DecoupleSubtreeAction
end Graph

namespace Forest

open DecoupleSubtreeAction (Fresh Chain)

variable {width : ℕ} {s : Store} {F : Forest} {a : DecoupleSubtreeAction} {l r : Tree}

/-- The nodes above the decoupling point are the chain that both actions climb. -/
theorem exists_chain (hF : F.WellFormed width s) (hp : Tree.node a.decouplingPoint l r ∈ F.subtrees)
    (ha : a.Fresh width F) : ∃ L, Chain a.decouplingPoint L (a.buildRoot s.nodes) ∧ L ⊆ F.ptrs ∧
      ∀ u ∈ F.subtrees, Tree.node a.decouplingPoint l r ∈ u.subtrees → u.ptr ∈ L := by
  obtain ⟨t, ht, hpt⟩ := mem_subtrees.1 hp
  have hst := hF.stored.trees t ht
  have hn := (List.nodup_flatMap.1 hF.valid.nodup).1 t ht
  have hchild : ∀ {u : Tree}, Tree.node a.decouplingPoint l r ∈ u.subtrees → l ≠ u := by
    rintro u hu rfl
    have h := congrArg sizeOf (Tree.subtrees_antisymm hu
      (Tree.mem_subtrees_node.2 (Or.inr (Or.inl (Tree.mem_subtrees_self _)))))
    simp only [Tree.node.sizeOf_spec] at h
    omega
  obtain ⟨P, hP⟩ := Tree.exists_pathTo (Tree.mem_subtrees_children hpt).1 (hchild hpt)
  obtain ⟨hpl, hpr, hls, hrs⟩ := hst.children hpt
  have hparents := hst.parentChain hP
  rw [hls.root] at hparents
  have hbehind := hst.childrenBehind hP hn
  have hmem : ∀ z ∈ P.map Tree.ptr, z ∈ F.ptrs := by
    intro z hz
    obtain ⟨u, hu, rfl⟩ := List.mem_map.1 hz
    exact List.mem_flatMap.2 ⟨t, ht, Tree.ptr_mem_of_mem_pathTo hP hu⟩
  -- the children of the decoupling point are behind it
  have hold : ∀ z ∈ P.map Tree.ptr, a.buildRoot s.nodes z = if z = a.decouplingPoint then
      { s.nodes z with leftChild := none, rightChild := none } else s.nodes z := by
    intro z hz
    obtain ⟨hq, hb, hv⟩ := ha.ne_of_mem (hmem z hz)
    have hout : ∀ {c : Ptr}, (s.nodes a.decouplingPoint).leftChild = some c ∨
        (s.nodes a.decouplingPoint).rightChild = some c → c ∉ P.map Tree.ptr := by
      intro c hc
      cases hPm : P.map Tree.ptr with
      | nil => exact List.not_mem_nil
      | cons z R =>
          rw [hPm] at hparents hbehind
          obtain rfl := Option.some.inj hparents.1
          exact hbehind.1 c hc
    exact DecoupleSubtreeAction.buildRoot_old hq hb hv (fun h => hout (Or.inl h) hz) fun h => hout (Or.inr h) hz
  refine ⟨P.map Tree.ptr, ⟨hparents.congr fun z hz => ?_, hbehind.congr fun z hz c hc => ?_,
    Tree.nodup_pathTo hP hn⟩, hmem, fun u hu hpu => ?_⟩
  · rw [hold z hz]
    split_ifs <;> rfl
  · rw [hold z hz] at hc
    split_ifs at hc with he
    · rcases hc with hc | hc <;> cases hc
    · exact hc
  · obtain ⟨t', ht', hut⟩ := mem_subtrees.1 hu
    obtain ⟨x, hx⟩ := (Tree.node a.decouplingPoint l r).labels_nonempty
    obtain rfl := hF.valid.distinct.eq_of_mem ht' ht (Tree.labels_subset_of_mem_subtrees hut
      (Tree.labels_subset_of_mem_subtrees hpu hx)) (Tree.labels_subset_of_mem_subtrees hpt hx)
    exact List.mem_map_of_mem (Tree.mem_pathTo hP hn hut (Tree.mem_subtrees_children hpu).1 (hchild hpu).symm)

/-- What `undoWithSubtreeRoot` reads of the memory after `doAction`; the words are
those above the decoupling point. -/
structure Decoupled (a : DecoupleSubtreeAction) (width : ℕ) (F : Forest) (L : List Ptr) (p : Tree) (s : Store) :
    Prop where
  chain : Chain a.decouplingPoint L s.nodes
  words : ∀ u ∈ F.subtrees, p ∈ u.subtrees → (s.nodes u.ptr).subtreeTerminals =
    encode width (symmDiff u.subtreeTerminals (symmDiff p.subtreeTerminals {a.newLabelParentTree}))
  root : s.nodes a.decoupledSubtreeRoot =
    { s.nodes a.decoupledSubtreeRoot with
      parent := some a.decoupledSubtreeVirtualRoot
      sibling := some a.decoupledSubtreeVirtualSibling
      subtreeTerminals := encode width p.subtreeTerminals }
  virtualSibling : (s.nodes a.decoupledSubtreeVirtualSibling).parent = some a.decoupledSubtreeVirtualRoot ∧
    (s.nodes a.decoupledSubtreeVirtualSibling).sibling = some a.decoupledSubtreeRoot
  virtualRoot : (s.nodes a.decoupledSubtreeVirtualRoot).leftChild = some a.decoupledSubtreeRoot ∧
    (s.nodes a.decoupledSubtreeVirtualRoot).rightChild = some a.decoupledSubtreeVirtualSibling
  labelToTerminal : s.labelToTerminal a.newLabelParentTree = some a.decouplingPoint ∧
    s.labelToTerminal a.newLabelSubtree = some a.decoupledSubtreeVirtualSibling
  terminalToLabel : s.terminalToLabel a.decoupledSubtreeVirtualSibling = some a.newLabelSubtree
  roots : a.decoupledSubtreeVirtualRoot ∈ s.roots ∧
    ∃ t ∈ s.roots, Bitset.mem (s.nodes t).subtreeTerminals a.newLabelParentTree = true

/-- **`doAction` succeeds.** -/
theorem exists_doAction {fuel : ℕ} (hF : F.WellFormed width s) (hfuel : F.ptrs.length ≤ fuel)
    (hp : Tree.node a.decouplingPoint l r ∈ F.subtrees) (ha : a.Fresh width F) :
    ∃ L s₁, a.doAction fuel s = some s₁ ∧ L.length ≤ fuel ∧
      (∀ u ∈ F.subtrees, Tree.node a.decouplingPoint l r ∈ u.subtrees → u.ptr ∈ L) ∧
      Decoupled a width F L (Tree.node a.decouplingPoint l r) s₁ := by
  obtain ⟨L, hchain, hLF, hL⟩ := exists_chain hF hp ha
  have hlen : L.length ≤ fuel := ((hchain.nodup.subperm hLF).length_le).trans hfuel
  obtain ⟨hx, -⟩ : 0 < a.newLabelParentTree ∧ _ := ha.within _ (by simp)
  have hmem : ∀ u ∈ F.subtrees, u.ptr ∈ F.ptrs := fun u hu => map_ptr_subtrees F ▸ List.mem_map_of_mem hu
  have hwords : ∀ u ∈ F.subtrees, (s.nodes u.ptr).subtreeTerminals = encode width u.subtreeTerminals := by
    intro u hu
    obtain ⟨t, ht, hut⟩ := mem_subtrees.1 hu
    obtain ⟨_, _, h⟩ := (hF.stored.trees t ht).of_mem hut
    exact h.words
  have hpw : (s.nodes a.decouplingPoint).subtreeTerminals = encode width _ := hwords _ hp
  obtain ⟨t, ht, hpt⟩ := mem_subtrees.1 hp
  have htF := mem_subtrees.2 ⟨t, ht, Tree.mem_subtrees_self t⟩
  obtain ⟨hpl, hpr, -, -⟩ := (hF.stored.trees t ht).children hpt
  obtain ⟨hlF, hrF⟩ := mem_subtrees_children hp
  obtain ⟨hq, hbp, hbs, hvl, hvr⟩ := DecoupleSubtreeAction.buildRoot_new (a := a) (h := s.nodes) (fun z hz => by
    have hz := ha.addresses z hz
    rw [hpl, hpr]
    refine ⟨?_, ?_, ?_⟩
    · rintro rfl
      exact hz (hmem _ hp)
    · intro h
      exact hz (Option.some.inj h ▸ hmem _ hlF)
    · intro h
      exact hz (Option.some.inj h ▸ hmem _ hrF)) ha.nodup
  obtain ⟨h₁, hclimb, hchain₁, hin, hout⟩ := hchain.xorLabelPropagation hlen
    (Bitset.toggle (s.nodes a.decouplingPoint).subtreeTerminals a.newLabelParentTree)
  have hnew : ∀ z ∈ [a.decoupledSubtreeRoot, a.decoupledSubtreeVirtualSibling, a.decoupledSubtreeVirtualRoot],
      h₁ z = a.buildRoot s.nodes z := fun z hz => hout z fun hzL => ha.addresses z hz (hLF hzL)
  have hdone : ∀ u ∈ F.subtrees, Tree.node a.decouplingPoint l r ∈ u.subtrees → (h₁ u.ptr).subtreeTerminals =
      encode width (symmDiff u.subtreeTerminals
        (symmDiff (Tree.node a.decouplingPoint l r).subtreeTerminals {a.newLabelParentTree})) := by
    intro u hu hpu
    obtain ⟨huq, hub, huv⟩ := ha.ne_of_mem (hmem u hu)
    rw [hin _ (hL u hu hpu), DecoupleSubtreeAction.buildRoot_subtreeTerminals huq hub huv, hwords u hu, hpw,
      Bitset.toggle_encode hx, Bitset.xor_encode]
  have hxF : ∀ u ∈ F.subtrees, a.newLabelParentTree ∉ u.subtreeTerminals := by
    intro u hu hxu
    obtain ⟨t, ht, hut⟩ := mem_subtrees.1 hu
    exact (ha.labels t ht).1 (Tree.subtreeTerminals_subset_of_mem_subtrees hut hxu)
  -- the root of the parent tree
  have hpoint : (h₁ a.decouplingPoint).subtreeTerminals = encode width {a.newLabelParentTree} := by
    have h := hdone _ hp (Tree.mem_subtrees_self _)
    rwa [symmDiff_symmDiff_cancel_left] at h
  have hsub : Bitset.hasSubset (h₁ a.decouplingPoint).subtreeTerminals (h₁ t.ptr).subtreeTerminals = true := by
    rw [hpoint, hdone t htF hpt]
    refine Bitset.hasSubset_encode ?_
    rw [Finset.singleton_subset_iff, Finset.mem_symmDiff, Finset.mem_symmDiff, Finset.mem_singleton]
    exact Or.inr ⟨Or.inr ⟨rfl, hxF _ hp⟩, hxF t htF⟩
  obtain ⟨root, hroot⟩ : ∃ root, (s.roots.find? fun r => Bitset.hasSubset (h₁ a.decouplingPoint).subtreeTerminals
      (h₁ r).subtreeTerminals) = some root :=
    Option.isSome_iff_exists.1 (List.find?_isSome.2
      ⟨t.ptr, hF.stored.roots ▸ List.mem_map_of_mem ht, hsub⟩)
  have hrootmem : root ∈ s.roots := List.mem_of_find?_eq_some hroot
  have hrootx : Bitset.mem (h₁ root).subtreeTerminals a.newLabelParentTree = true := by
    have hrsub : Bitset.hasSubset (h₁ a.decouplingPoint).subtreeTerminals (h₁ root).subtreeTerminals = true := by
      simpa using List.find?_some hroot
    refine Bitset.mem_of_hasSubset hrsub ?_ ?_
    · obtain ⟨u, hu, rfl⟩ := List.mem_map.1 (hF.stored.roots ▸ hrootmem)
      have huF := mem_subtrees.2 ⟨u, hu, Tree.mem_subtrees_self u⟩
      obtain ⟨huq, hub, huv⟩ := ha.ne_of_mem (hmem u huF)
      have hold : (a.buildRoot s.nodes u.ptr).subtreeTerminals = encode width u.subtreeTerminals := by
        rw [DecoupleSubtreeAction.buildRoot_subtreeTerminals huq hub huv, hwords u huF]
      rw [hpoint, Bitset.length_encode]
      by_cases huL : u.ptr ∈ L
      · rw [hin _ huL, hold, hpw, Bitset.toggle_encode hx, Bitset.xor_encode, Bitset.length_encode]
      · rw [hout _ huL, hold, Bitset.length_encode]
    · rw [hpoint, Bitset.mem_encode hx (ha.within _ (by simp)).2]
      simp
  obtain ⟨hvmem, hrmem⟩ := DecoupleSubtreeAction.mem_insertRoots h₁ a.decoupledSubtreeVirtualRoot hrootmem
  refine ⟨L, ⟨h₁, (DeleteEdgeAction.insertRoots h₁ s.roots root a.decoupledSubtreeVirtualRoot
    (s.roots.idxOf root)).2, Function.update (Function.update s.labelToTerminal a.newLabelParentTree
      (some a.decouplingPoint)) a.newLabelSubtree (some a.decoupledSubtreeVirtualSibling),
    Function.update (Function.update s.terminalToLabel a.decouplingPoint (some a.newLabelParentTree))
      a.decoupledSubtreeVirtualSibling (some a.newLabelSubtree)⟩, ?_, hlen, hL,
    ⟨hchain₁, hdone, ?_, ?_, ?_, ?_, ?_, hvmem, root, hrmem, hrootx⟩⟩
  · rw [DecoupleSubtreeAction.doAction]
    simp only [hclimb, Option.bind_eq_bind, Option.bind_some, hroot]
  · dsimp only
    rw [hnew _ (by simp), hq, ← hpw]
  · dsimp only
    rw [hnew _ (by simp)]
    exact ⟨hbp, hbs⟩
  · dsimp only
    rw [hnew _ (by simp)]
    exact ⟨hvl, hvr⟩
  · dsimp only
    rw [Function.update_of_ne ha.ne, Function.update_self, Function.update_self]
    exact ⟨rfl, rfl⟩
  · dsimp only
    rw [Function.update_self]

/-- **After undoing, the new label is still there**, in the words of the decoupling
point and of all nodes above it. -/
theorem undoAction_doAction {fuel : ℕ} (hF : F.WellFormed width s) (hfuel : F.ptrs.length ≤ fuel)
    (hp : Tree.node a.decouplingPoint l r ∈ F.subtrees) (ha : a.Fresh width F) :
    ∃ s₁ s₂, a.doAction fuel s = some s₁ ∧ a.undoAction fuel s₁ = some s₂ ∧
      ∀ u ∈ F.subtrees, Tree.node a.decouplingPoint l r ∈ u.subtrees →
        (s₂.nodes u.ptr).subtreeTerminals = encode width (insert a.newLabelParentTree u.subtreeTerminals) := by
  obtain ⟨L, s₁, hdo, hlen, hL, hs₁⟩ := exists_doAction hF hfuel hp ha
  set p := Tree.node a.decouplingPoint l r with hpdef
  obtain ⟨h₂, hclimb, -, hin, -⟩ := hs₁.chain.xorLabelPropagation hlen (encode width p.subtreeTerminals)
  obtain ⟨root, hroot⟩ : ∃ root, (s₁.roots.find? fun r => Bitset.mem (s₁.nodes r).subtreeTerminals
      a.newLabelParentTree) = some root := Option.isSome_iff_exists.1 (List.find?_isSome.2 hs₁.roots.2)
  have hroots := hs₁.roots.1
  have hq : (s₁.nodes a.decoupledSubtreeRoot).sibling = some a.decoupledSubtreeVirtualSibling ∧
      (s₁.nodes a.decoupledSubtreeRoot).parent = some a.decoupledSubtreeVirtualRoot ∧
      (s₁.nodes a.decoupledSubtreeRoot).subtreeTerminals = encode width p.subtreeTerminals := by
    rw [hs₁.root]
    exact ⟨rfl, rfl, rfl⟩
  obtain ⟨s₂, hundo, hwords⟩ : ∃ s₂, a.undoAction fuel s₁ = some s₂ ∧
      ∀ x, (s₂.nodes x).subtreeTerminals = (h₂ x).subtreeTerminals := by
    rw [DecoupleSubtreeAction.undoAction, hs₁.labelToTerminal.1]
    simp only [Option.bind_eq_bind, Option.bind_some, hs₁.labelToTerminal.2, hs₁.terminalToLabel,
      hs₁.virtualSibling.2, ne_eq, not_true_eq_false, if_false, DecoupleSubtreeAction.undoWithSubtreeRoot, hq.1,
      hq.2.1, hs₁.virtualSibling.1, hs₁.virtualRoot, or_self, hroot, hroots,
      DecoupleSubtreeAction.moveLabel_nodes, DecoupleSubtreeAction.eraseLabels, hq.2.2, hclimb]
    refine ⟨_, rfl, fun x => ?_⟩
    rw [DecoupleSubtreeAction.setParentOf_subtreeTerminals, DecoupleSubtreeAction.setParentOf_subtreeTerminals,
      DecoupleSubtreeAction.setChild_subtreeTerminals]
  refine ⟨s₁, s₂, hdo, hundo, fun u hu hpu => ?_⟩
  rw [hwords, hin _ (hL u hu hpu), hs₁.words u hu hpu, Bitset.xor_encode]
  congr 1
  rw [symmDiff_comm p.subtreeTerminals, ← symmDiff_assoc, symmDiff_symmDiff_cancel_right]
  have hx : a.newLabelParentTree ∉ u.subtreeTerminals := by
    obtain ⟨t, ht, hut⟩ := mem_subtrees.1 hu
    exact fun hxu => (ha.labels t ht).1 (Tree.subtreeTerminals_subset_of_mem_subtrees hut hxu)
  ext z
  simp only [Finset.mem_symmDiff, Finset.mem_singleton, Finset.mem_insert]
  grind

/-- The forest is back: the links of its nodes, the words of the decoupling point and
above, the roots and the two maps. -/
structure Restored (F : Forest) (p : Tree) (s s' : Store) : Prop where
  links : ∀ q ∈ F.ptrs, (s'.nodes q).parent = (s.nodes q).parent ∧ (s'.nodes q).sibling = (s.nodes q).sibling ∧
    (s'.nodes q).leftChild = (s.nodes q).leftChild ∧ (s'.nodes q).rightChild = (s.nodes q).rightChild
  subtreeTerminals : ∀ u ∈ F.subtrees, p ∈ u.subtrees →
    (s'.nodes u.ptr).subtreeTerminals = (s.nodes u.ptr).subtreeTerminals
  roots : s'.roots = s.roots
  labelToTerminal : s'.labelToTerminal = s.labelToTerminal
  terminalToLabel : s'.terminalToLabel = s.terminalToLabel

/-- `doAction` and then `undoAction` give the forest back. -/
def Restores (fuel : ℕ) (F : Forest) (p : Tree) (a : DecoupleSubtreeAction) (s : Store) : Prop :=
  ∃ s₁ s₂, a.doAction fuel s = some s₁ ∧ a.undoAction fuel s₁ = some s₂ ∧ Restored F p s s₂

/-- A label that stays in a word is enough: the memory is not restored. -/
theorem not_restores_of_insert {fuel : ℕ} {p : Tree} {s₁ s₂ : Store} (hF : F.WellFormed width s)
    (hp : p ∈ F.subtrees) (ha : a.Fresh width F) (hdo : a.doAction fuel s = some s₁)
    (hundo : a.undoAction fuel s₁ = some s₂) (hwords : (s₂.nodes p.ptr).subtreeTerminals =
      encode width (insert a.newLabelParentTree p.subtreeTerminals)) : ¬Restores fuel F p a s := by
  rintro ⟨s₁', s₂', hdo', hundo', hres⟩
  obtain rfl := Option.some.inj (hdo.symm.trans hdo')
  obtain rfl := Option.some.inj (hundo.symm.trans hundo')
  obtain ⟨t, ht, hpt⟩ := mem_subtrees.1 hp
  obtain ⟨_, _, hst⟩ := (hF.stored.trees t ht).of_mem hpt
  have heq := hres.subtreeTerminals p hp (Tree.mem_subtrees_self p)
  rw [hwords, hst.words] at heq
  have hx := ha.within a.newLabelParentTree (by simp)
  have hin := Bitset.mem_encode (S := insert a.newLabelParentTree p.subtreeTerminals) hx.1 hx.2
  rw [heq, Bitset.mem_encode hx.1 hx.2] at hin
  have hmem : a.newLabelParentTree ∈ p.subtreeTerminals := by simpa using hin
  exact (ha.labels t ht).1 (Tree.subtreeTerminals_subset_of_mem_subtrees hpt hmem)

/-- **No decoupling is undone.**  Both actions succeed, but `newLabelParentTree` stays
in the words of the decoupling point and of every node above it. -/
theorem decoupleSubtree_not_restored {fuel : ℕ} (hF : F.WellFormed width s) (hfuel : F.ptrs.length ≤ fuel)
    (hp : Tree.node a.decouplingPoint l r ∈ F.subtrees) (ha : a.Fresh width F) :
    (∃ s₁ s₂, a.doAction fuel s = some s₁ ∧ a.undoAction fuel s₁ = some s₂ ∧
      ∀ u ∈ F.subtrees, Tree.node a.decouplingPoint l r ∈ u.subtrees →
        (s₂.nodes u.ptr).subtreeTerminals = encode width (insert a.newLabelParentTree u.subtreeTerminals)) ∧
      ¬Restores fuel F (Tree.node a.decouplingPoint l r) a s := by
  obtain ⟨s₁, s₂, hdo, hundo, hwords⟩ := undoAction_doAction hF hfuel hp ha
  exact ⟨⟨s₁, s₂, hdo, hundo, hwords⟩,
    not_restores_of_insert hF hp ha hdo hundo (hwords _ hp (Tree.mem_subtrees_self _))⟩

/-- `((1,2),3)` with the labels `4` and `5` for the clade of `1` and `2`. -/
theorem decoupleSubtree_not_restored_cherry :
    ¬Restores 5 [.node 4 (.node 3 (.leaf 0 1 ∅) (.leaf 1 2 ∅)) (.leaf 2 3 ∅)]
      (.node 3 (.leaf 0 1 ∅) (.leaf 1 2 ∅)) ⟨3, 5, 6, 7, 4, 5⟩
      (toStore 1 [.node 4 (.node 3 (.leaf 0 1 ∅) (.leaf 1 2 ∅)) (.leaf 2 3 ∅)]) :=
  (decoupleSubtree_not_restored (a := ⟨3, 5, 6, 7, 4, 5⟩)
    (toStore_wellFormed (by decide) (by decide)) (by decide) (by decide)
    ⟨by decide, by decide, by decide, by decide, by decide⟩).2

/-- The tree `((1,2),3)` is well-formed, the labels `4` and `5` are new and fit into
the word, but decoupling the clade of `1` and `2` and undoing it does not give the
forest back. -/
theorem exists_not_restores :
    WellFormed 1 (toStore 1 [.node 4 (.node 3 (.leaf 0 1 ∅) (.leaf 1 2 ∅)) (.leaf 2 3 ∅)])
      [.node 4 (.node 3 (.leaf 0 1 ∅) (.leaf 1 2 ∅)) (.leaf 2 3 ∅)] ∧
    Fresh ⟨3, 5, 6, 7, 4, 5⟩ 1 [.node 4 (.node 3 (.leaf 0 1 ∅) (.leaf 1 2 ∅)) (.leaf 2 3 ∅)] ∧
    ¬Restores 5 [.node 4 (.node 3 (.leaf 0 1 ∅) (.leaf 1 2 ∅)) (.leaf 2 3 ∅)]
      (.node 3 (.leaf 0 1 ∅) (.leaf 1 2 ∅)) ⟨3, 5, 6, 7, 4, 5⟩
      (toStore 1 [.node 4 (.node 3 (.leaf 0 1 ∅) (.leaf 1 2 ∅)) (.leaf 2 3 ∅)]) := by
  have hF : WellFormed 1 (toStore 1 [.node 4 (.node 3 (.leaf 0 1 ∅) (.leaf 1 2 ∅)) (.leaf 2 3 ∅)])
      [.node 4 (.node 3 (.leaf 0 1 ∅) (.leaf 1 2 ∅)) (.leaf 2 3 ∅)] :=
    toStore_wellFormed (by decide) (by decide)
  have ha : Fresh ⟨3, 5, 6, 7, 4, 5⟩ 1 [.node 4 (.node 3 (.leaf 0 1 ∅) (.leaf 1 2 ∅)) (.leaf 2 3 ∅)] :=
    ⟨by decide, by decide, by decide, by decide, by decide⟩
  have hp : Tree.node 3 (.leaf 0 1 ∅) (.leaf 1 2 ∅) ∈
      subtrees [.node 4 (.node 3 (.leaf 0 1 ∅) (.leaf 1 2 ∅)) (.leaf 2 3 ∅)] := by decide
  obtain ⟨s₁, s₂, hdo, hundo, hwords⟩ := undoAction_doAction hF (show _ ≤ 5 by decide) hp ha
  exact ⟨hF, ha, not_restores_of_insert hF hp ha hdo hundo (hwords _ hp (by decide))⟩

end Forest
end Maf
