/-
# Nodes at their addresses

`src/Graph/Node.hpp` and `src/Graph/Forest.hpp` as they lie in memory: a `Node`
holds the addresses of its neighbours and the words of `subtreeTerminals`, and a
`Store` holds the nodes of one forest, its `Roots` and its two maps.

The actions climb from a node to its root, change the words of every node they
meet and sort its children (`propagate`).  On a chain of parents that does not
meet itself this is a change of all nodes of the chain at once
(`propagate_eq`): all words first, then all children by the new words.
-/

import Maf.Bitset
import Maf.Tree

namespace Maf.Graph

open Bitset (Word)

/-- `graph::Node`. -/
structure Node where
  parent : Option Ptr := none
  sibling : Option Ptr := none
  leftChild : Option Ptr := none
  rightChild : Option Ptr := none
  subtreeTerminals : List Word := []
  deriving DecidableEq

/-- The memory of the nodes. -/
abbrev Nodes := Ptr → Node

/-- `graph::Forest`. -/
@[ext] structure Store where
  nodes : Nodes
  roots : List Ptr
  labelToTerminal : Label → Option Ptr
  terminalToLabel : Ptr → Option Label

namespace Nodes

/-- `Node::hasSmallestTerminal`. -/
def hasSmallestTerminal (h : Nodes) (a b : Ptr) : Bool :=
  Bitset.hasSmallest (h a).subtreeTerminals (h b).subtreeTerminals

/-- Writes to the fields of one node. -/
def modify (h : Nodes) (p : Ptr) (f : Node → Node) : Nodes := Function.update h p (f (h p))

def setParent (h : Nodes) (p : Ptr) (q : Option Ptr) : Nodes := h.modify p fun n => { n with parent := q }

def setSibling (h : Nodes) (p : Ptr) (q : Option Ptr) : Nodes := h.modify p fun n => { n with sibling := q }

def setLeftChild (h : Nodes) (p : Ptr) (q : Option Ptr) : Nodes :=
  h.modify p fun n => { n with leftChild := q }

def setRightChild (h : Nodes) (p : Ptr) (q : Option Ptr) : Nodes :=
  h.modify p fun n => { n with rightChild := q }

/-- The words of a node with those of `labels` combined into them. -/
def withLabels (op : Word → Word → Word) (labels : List Word) (n : Node) : Node :=
  { n with subtreeTerminals := List.zipWith op n.subtreeTerminals labels }

/-- A node with its children in the order of their smallest terminals. -/
def withSortedChildren (h : Nodes) (n : Node) : Node :=
  match n.leftChild, n.rightChild with
  | some l, some r =>
      if h.hasSmallestTerminal r l then { n with leftChild := some r, rightChild := some l } else n
  | _, _ => n

/-- The loop from a node to its root that combines `labels` into the words of
every node with `op` and sorts its children.  It returns the last node it met as
the root.  `guarded` says whether a missing child is tested for or dereferenced. -/
def propagate (op : Word → Word → Word) (labels : List Word) (guarded : Bool) :
    ℕ → Ptr → Option Ptr → Nodes → Option (Ptr × Nodes)
  | _, root, none, h => some (root, h)
  | 0, _, some _, _ => none
  | fuel + 1, _, some p, h =>
      let h₁ := h.modify p (withLabels op labels)
      if !guarded && ((h₁ p).leftChild.isNone || (h₁ p).rightChild.isNone) then none
      else
        let h₂ := h₁.modify p (withSortedChildren h₁)
        propagate op labels guarded fuel p (h₂ p).parent h₂

/-- What a write leaves at a node. -/
theorem modify_apply (h : Nodes) (p : Ptr) (f : Node → Node) (q : Ptr) :
    h.modify p f q = if q = p then f (h q) else h q := by
  rw [modify, Function.update_apply]
  split_ifs with hq
  · rw [hq]
  · rfl

/-- The node that is written. -/
@[simp] theorem modify_self (h : Nodes) (p : Ptr) (f : Node → Node) : h.modify p f p = f (h p) :=
  Function.update_self ..

/-- The other nodes are left alone. -/
theorem modify_of_ne (h : Nodes) {p q : Ptr} (f : Node → Node) (hq : q ≠ p) : h.modify p f q = h q :=
  Function.update_of_ne hq ..

/-- A change of the words keeps the parent. -/
@[simp] theorem withLabels_parent (op : Word → Word → Word) (d : List Word) (n : Node) :
    (withLabels op d n).parent = n.parent := rfl

/-- A change of the words keeps the sibling. -/
@[simp] theorem withLabels_sibling (op : Word → Word → Word) (d : List Word) (n : Node) :
    (withLabels op d n).sibling = n.sibling := rfl

/-- A change of the words keeps the left child. -/
@[simp] theorem withLabels_leftChild (op : Word → Word → Word) (d : List Word) (n : Node) :
    (withLabels op d n).leftChild = n.leftChild := rfl

/-- A change of the words keeps the right child. -/
@[simp] theorem withLabels_rightChild (op : Word → Word → Word) (d : List Word) (n : Node) :
    (withLabels op d n).rightChild = n.rightChild := rfl

/-- Sorting the children keeps the parent. -/
@[simp] theorem withSortedChildren_parent (h : Nodes) (n : Node) :
    (withSortedChildren h n).parent = n.parent := by
  unfold withSortedChildren
  split
  · split_ifs <;> rfl
  · rfl

/-- Sorting the children keeps the sibling. -/
@[simp] theorem withSortedChildren_sibling (h : Nodes) (n : Node) :
    (withSortedChildren h n).sibling = n.sibling := by
  unfold withSortedChildren
  split
  · split_ifs <;> rfl
  · rfl

/-- Sorting the children keeps the words. -/
@[simp] theorem withSortedChildren_subtreeTerminals (h : Nodes) (n : Node) :
    (withSortedChildren h n).subtreeTerminals = n.subtreeTerminals := by
  unfold withSortedChildren
  split
  · split_ifs <;> rfl
  · rfl

/-- The same two children, perhaps the other way round. -/
theorem withSortedChildren_children (h : Nodes) (n : Node) :
    (withSortedChildren h n).leftChild = n.leftChild ∧ (withSortedChildren h n).rightChild = n.rightChild ∨
      (withSortedChildren h n).leftChild = n.rightChild ∧ (withSortedChildren h n).rightChild = n.leftChild := by
  unfold withSortedChildren
  split
  · rename_i l r hl hr
    split_ifs
    · exact Or.inr ⟨hr.symm, hl.symm⟩
    · exact Or.inl ⟨rfl, rfl⟩
  · exact Or.inl ⟨rfl, rfl⟩

/-- Sorting the children depends on their words only. -/
theorem withSortedChildren_congr {h h' : Nodes} {n : Node}
    (hs : ∀ x, n.leftChild = some x ∨ n.rightChild = some x →
      (h x).subtreeTerminals = (h' x).subtreeTerminals) :
    withSortedChildren h n = withSortedChildren h' n := by
  unfold withSortedChildren
  split
  · rename_i l r hl hr
    rw [hasSmallestTerminal, hasSmallestTerminal, hs l (Or.inl hl), hs r (Or.inr hr)]
  · rfl

/-! ### The chain of parents -/

/-- The addresses `P` are those met on the way from `start` to parents, before
`stop`. -/
def ParentChain (h : Nodes) : Option Ptr → List Ptr → Option Ptr → Prop
  | start, [], stop => start = stop
  | start, q :: P, stop => start = some q ∧ ParentChain h (h q).parent P stop

/-- Two chains of parents, one above the other. -/
theorem ParentChain.append {h : Nodes} {start mid stop : Option Ptr} {P Q : List Ptr}
    (hP : ParentChain h start P mid) (hQ : ParentChain h mid Q stop) : ParentChain h start (P ++ Q) stop := by
  induction P generalizing start with
  | nil =>
      obtain rfl : start = mid := hP
      exact hQ
  | cons q P ih => exact ⟨hP.1, ih hP.2⟩

/-- A chain depends on the parents of its nodes only. -/
theorem ParentChain.congr {h h' : Nodes} {start stop : Option Ptr} {P : List Ptr}
    (hP : ParentChain h start P stop) (heq : ∀ q ∈ P, (h' q).parent = (h q).parent) :
    ParentChain h' start P stop := by
  induction P generalizing start with
  | nil => exact hP
  | cons q P ih =>
      refine ⟨hP.1, ?_⟩
      rw [heq q (List.mem_cons_self ..)]
      exact ih hP.2 fun x hx => heq x (List.mem_cons_of_mem _ hx)

/-- The parent of a node of a chain is its next node, or the end. -/
theorem ParentChain.parent_mem {h : Nodes} {start stop : Option Ptr} {P : List Ptr}
    (hP : ParentChain h start P stop) {q x : Ptr} (hq : q ∈ P) (hx : (h q).parent = some x) :
    x ∈ P ∨ stop = some x := by
  induction P generalizing start with
  | nil => cases hq
  | cons y P ih =>
      obtain ⟨-, hP⟩ := hP
      rcases List.mem_cons.1 hq with rfl | hq
      · cases P with
        | nil =>
            rw [ParentChain, hx] at hP
            exact Or.inr hP.symm
        | cons z P =>
            rw [ParentChain, hx] at hP
            obtain rfl := Option.some.inj hP.1
            exact Or.inl (List.mem_cons_of_mem _ (List.mem_cons_self ..))
      · exact (ih hP hq).imp_left (List.mem_cons_of_mem _)

/-- The second of two nodes of a chain is not the parent of a later one. -/
theorem ParentChain.not_mem_tail {h : Nodes} {start : Option Ptr} {q x : Ptr} {P : List Ptr}
    (hP : ParentChain h start (q :: P) none) (hnd : (q :: P).Nodup) (hx : (h x).parent = some q) : x ∉ P := by
  intro hmem
  rw [List.nodup_cons] at hnd
  rcases hP.2.parent_mem hmem hx with hq | hq
  · exact hnd.1 hq
  · cases hq

/-- The words of all nodes of a chain are combined with `labels`. -/
def addLabels (op : Word → Word → Word) (labels : List Word) (P : List Ptr) (h : Nodes) : Nodes :=
  fun q => if q ∈ P then withLabels op labels (h q) else h q

/-- The children of all nodes of a chain are sorted. -/
def sortAll (P : List Ptr) (h : Nodes) : Nodes :=
  fun q => if q ∈ P then withSortedChildren h (h q) else h q

/-- Nodes off the path keep their words. -/
theorem addLabels_of_notMem {op : Word → Word → Word} {d : List Word} {P : List Ptr} {h : Nodes} {q : Ptr}
    (hq : q ∉ P) : addLabels op d P h q = h q := if_neg hq

/-- Nodes on the path have their words changed. -/
theorem addLabels_of_mem {op : Word → Word → Word} {d : List Word} {P : List Ptr} {h : Nodes} {q : Ptr}
    (hq : q ∈ P) : addLabels op d P h q = withLabels op d (h q) := if_pos hq

/-- Nodes off the path are not sorted. -/
theorem sortAll_of_notMem {P : List Ptr} {h : Nodes} {q : Ptr} (hq : q ∉ P) : sortAll P h q = h q :=
  if_neg hq

/-- Nodes on the path have their children sorted. -/
theorem sortAll_of_mem {P : List Ptr} {h : Nodes} {q : Ptr} (hq : q ∈ P) :
    sortAll P h q = withSortedChildren h (h q) := if_pos hq

/-- What the climb relies on: the children of a node of the chain are not met again. -/
def ChildrenBehind (h : Nodes) : List Ptr → Prop
  | [] => True
  | q :: P => (∀ x, (h q).leftChild = some x ∨ (h q).rightChild = some x → x ∉ q :: P) ∧ ChildrenBehind h P

/-- What is said of the children depends on the child links only. -/
theorem ChildrenBehind.congr {h h' : Nodes} {P : List Ptr} (hP : ChildrenBehind h P)
    (heq : ∀ q ∈ P, ∀ x, (h' q).leftChild = some x ∨ (h' q).rightChild = some x →
      (h q).leftChild = some x ∨ (h q).rightChild = some x) : ChildrenBehind h' P := by
  induction P with
  | nil => trivial
  | cons q P ih =>
      exact ⟨fun x hx => hP.1 x (heq q (List.mem_cons_self ..) x hx), ih hP.2 fun y hy =>
        heq y (List.mem_cons_of_mem _ hy)⟩

/-- Children that point back to their parent are behind it. -/
theorem ParentChain.childrenBehind {h : Nodes} {start : Option Ptr} {P : List Ptr}
    (hP : ParentChain h start P none) (hnd : P.Nodup)
    (hback : ∀ q ∈ P, ∀ x, (h q).leftChild = some x ∨ (h q).rightChild = some x → (h x).parent = some q) :
    ChildrenBehind h P := by
  induction P generalizing start with
  | nil => trivial
  | cons q P ih =>
      refine ⟨fun x hx => ?_, ih hP.2 (List.nodup_cons.1 hnd).2 fun y hy => hback y (List.mem_cons_of_mem _ hy)⟩
      have hpar := hback q (List.mem_cons_self ..) x hx
      have htail := hP.not_mem_tail hnd hpar
      rw [List.mem_cons, not_or]
      refine ⟨?_, htail⟩
      rintro rfl
      have hP' := hP.2
      rw [hpar] at hP'
      cases P with
      | nil => cases hP'
      | cons z P =>
          obtain rfl := Option.some.inj hP'.1
          exact htail (List.mem_cons_self ..)

/-- Every node of the chain has two children. -/
def Inner (h : Nodes) (P : List Ptr) : Prop :=
  ∀ q ∈ P, (h q).leftChild.isSome = true ∧ (h q).rightChild.isSome = true

/-- **The climb to the root changes all nodes of the chain at once.** -/
theorem propagate_eq {op : Word → Word → Word} {labels : List Word} {guarded : Bool} {P : List Ptr}
    {fuel : ℕ} {root : Ptr} {start : Option Ptr} {h : Nodes} (hP : ParentChain h start P none)
    (hnd : P.Nodup) (hback : ChildrenBehind h P) (hinner : guarded = true ∨ Inner h P)
    (hfuel : P.length ≤ fuel) :
    propagate op labels guarded fuel root start h =
      some (P.getLastD root, sortAll P (addLabels op labels P h)) := by
  induction P generalizing fuel root start h with
  | nil =>
      obtain rfl : start = none := hP
      have hid : sortAll [] (addLabels op labels [] h) = h := funext fun q => by
        rw [sortAll_of_notMem List.not_mem_nil, addLabels_of_notMem List.not_mem_nil]
      rw [hid]
      cases fuel <;> rfl
  | cons q P ih =>
      obtain ⟨fuel, rfl⟩ : ∃ k, fuel = k + 1 := ⟨fuel - 1, by rw [List.length_cons] at hfuel; omega⟩
      obtain ⟨rfl, hP'⟩ := hP
      rw [List.nodup_cons] at hnd
      -- the children of `q` are not met again
      have hchild : ∀ x, (h q).leftChild = some x ∨ (h q).rightChild = some x → x ∉ P ∧ x ≠ q := by
        intro x hx
        have := hback.1 x hx
        rw [List.mem_cons, not_or] at this
        exact ⟨this.2, this.1⟩
      set h₁ := h.modify q (withLabels op labels) with hh₁
      set h₂ := h₁.modify q (withSortedChildren h₁) with hh₂
      have h₁q : h₁ q = withLabels op labels (h q) := modify_self ..
      have h₂q : h₂ q = withSortedChildren h₁ (h₁ q) := modify_self ..
      have hother : ∀ x, x ≠ q → h₂ x = h x := fun x hx => by
        rw [hh₂, modify_of_ne _ _ hx, hh₁, modify_of_ne _ _ hx]
      have hpar : ∀ x, (h₂ x).parent = (h x).parent := by
        intro x
        by_cases hx : x = q
        · rw [hx, h₂q, withSortedChildren_parent, h₁q, withLabels_parent]
        · rw [hother x hx]
      have hne : ∀ x ∈ P, x ≠ q := fun x hx he => hnd.1 (he ▸ hx)
      have step := @ih fuel q (h₂ q).parent h₂
        ((hpar q).symm ▸ hP'.congr fun x _ => hpar x) hnd.2
        (hback.2.congr fun x hx y hy => by rwa [hother x (hne x hx)] at hy)
        (hinner.imp_right fun hi x hx => by
          rw [hother x (hne x hx)]
          exact hi x (List.mem_cons_of_mem _ hx))
        (by rw [List.length_cons] at hfuel; omega)
      rw [propagate]
      have hguard : (!guarded && ((h₁ q).leftChild.isNone || (h₁ q).rightChild.isNone)) = false := by
        rcases hinner with rfl | hi
        · rfl
        · obtain ⟨hl, hr⟩ := hi q (List.mem_cons_self ..)
          rw [h₁q, withLabels_leftChild, withLabels_rightChild]
          simp [Option.isNone_eq_false_iff.2 hl, Option.isNone_eq_false_iff.2 hr]
      simp only [← hh₁, ← hh₂, hguard, Bool.false_eq_true, if_false, step, Option.some.injEq, Prod.mk.injEq]
      refine ⟨(List.getLastD_cons ..).symm, funext fun x => ?_⟩
      -- the words that sorting reads are the same
      have hwords : ∀ y, (addLabels op labels P h₂ y).subtreeTerminals =
          (addLabels op labels (q :: P) h y).subtreeTerminals := by
        intro y
        by_cases hyq : y = q
        · rw [hyq, addLabels_of_notMem hnd.1, addLabels_of_mem (List.mem_cons_self ..), h₂q,
            withSortedChildren_subtreeTerminals, h₁q]
        · by_cases hyP : y ∈ P
          · rw [addLabels_of_mem hyP, addLabels_of_mem (List.mem_cons_of_mem _ hyP), hother y hyq]
          · rw [addLabels_of_notMem hyP, addLabels_of_notMem (by simp [hyq, hyP]), hother y hyq]
      by_cases hxq : x = q
      · subst hxq
        rw [sortAll_of_notMem hnd.1, addLabels_of_notMem hnd.1, sortAll_of_mem (List.mem_cons_self ..),
          addLabels_of_mem (List.mem_cons_self ..), h₂q, h₁q]
        refine withSortedChildren_congr fun y hy => ?_
        obtain ⟨hyP, hyx⟩ := hchild y hy
        rw [hh₁, modify_of_ne _ _ hyx, addLabels_of_notMem (by simp [hyP, hyx])]
      · by_cases hxP : x ∈ P
        · rw [sortAll_of_mem hxP, addLabels_of_mem hxP, sortAll_of_mem (List.mem_cons_of_mem _ hxP),
            addLabels_of_mem (List.mem_cons_of_mem _ hxP), hother x hxq]
          exact withSortedChildren_congr fun y _ => hwords y
        · have hx : x ∉ q :: P := by simp [hxq, hxP]
          rw [sortAll_of_notMem hxP, addLabels_of_notMem hxP, sortAll_of_notMem hx, addLabels_of_notMem hx,
            hother x hxq]

end Nodes

end Maf.Graph
