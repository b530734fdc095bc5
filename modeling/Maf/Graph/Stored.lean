/-
# What the memory holds

A tree is stored at its addresses when every node of the source has the parent,
sibling, children and words that the tree gives it (`Tree.Stored`), and a forest
when its trees are and `Roots` lists them (`Forest.Stored`).  The nodes above a
subtree, from its parent to the root (`Tree.pathTo`), are the chain of parents
that the actions climb.
-/

import Maf.Forest
import Maf.Graph.Node

namespace Maf

open Bitset (encode Within)
open Graph

namespace Tree

/-- `leftChild`. -/
def leftPtr : Tree → Option Ptr
  | leaf .. => none
  | node _ l _ => some l.ptr

/-- `rightChild`. -/
def rightPtr : Tree → Option Ptr
  | leaf .. => none
  | node _ _ r => some r.ptr

/-- The `Node` at the root of a tree with the given parent and sibling. -/
def record (width : ℕ) (parent sibling : Option Ptr) (t : Tree) : Node :=
  ⟨parent, sibling, t.leftPtr, t.rightPtr, encode width t.subtreeTerminals⟩

/-- The memory holds the tree below the given parent, beside the given sibling. -/
def Stored (width : ℕ) (h : Nodes) : Option Ptr → Option Ptr → Tree → Prop
  | parent, sibling, leaf p x m => h p = record width parent sibling (leaf p x m)
  | parent, sibling, node p l r => h p = record width parent sibling (node p l r) ∧
      Stored width h (some p) (some r.ptr) l ∧ Stored width h (some p) (some l.ptr) r

variable {width : ℕ} {h h' : Nodes}

/-- The record of the root of a stored tree. -/
theorem Stored.root {parent sibling : Option Ptr} {t : Tree} (ht : t.Stored width h parent sibling) :
    h t.ptr = record width parent sibling t := by
  cases t with
  | leaf => exact ht
  | node => exact ht.1

/-- The root of a subtree is a node of the tree. -/
theorem ptr_mem_ptrs {s t : Tree} (hs : s ∈ t.subtrees) : s.ptr ∈ t.ptrs := by
  rw [← map_ptr_subtrees]
  exact List.mem_map_of_mem hs

/-- The nodes of a subtree are nodes of the tree. -/
theorem ptrs_subset_of_mem_subtrees {s t : Tree} (hs : s ∈ t.subtrees) : s.ptrs ⊆ t.ptrs := by
  intro p hp
  rw [← map_ptr_subtrees] at hp
  obtain ⟨u, hu, rfl⟩ := List.mem_map.1 hp
  exact ptr_mem_ptrs (subtrees_trans hu hs)

/-- A subtree has no node twice either. -/
theorem nodup_of_mem_subtrees {s t : Tree} (hs : s ∈ t.subtrees) (hn : t.ptrs.Nodup) : s.ptrs.Nodup := by
  induction t with
  | leaf => rwa [List.mem_singleton.1 hs]
  | node p l r ihl ihr =>
      rcases mem_subtrees_node.1 hs with rfl | hs | hs
      · exact hn
      · exact ihl hs (List.nodup_append.1 (List.nodup_cons.1 hn).2).1
      · exact ihr hs (List.nodup_append.1 (List.nodup_cons.1 hn).2).2.1

/-- Only the nodes of the tree matter. -/
theorem Stored.congr {parent sibling : Option Ptr} {t : Tree} (ht : t.Stored width h parent sibling)
    (heq : ∀ q ∈ t.ptrs, h' q = h q) : t.Stored width h' parent sibling := by
  induction t generalizing parent sibling with
  | leaf p x m => exact (heq p (by simp)).trans ht
  | node p l r ihl ihr =>
      obtain ⟨hp, hl, hr⟩ := ht
      refine ⟨(heq p (by simp)).trans hp, ihl hl fun q hq => heq q ?_, ihr hr fun q hq => heq q ?_⟩
      · simp [hq]
      · simp [hq]

/-- The root of the tree may have another parent and sibling. -/
theorem Stored.move {parent sibling parent' sibling' : Option Ptr} {t : Tree}
    (ht : t.Stored width h parent sibling) (hn : t.ptrs.Nodup)
    (hroot : h' t.ptr = { h t.ptr with parent := parent', sibling := sibling' })
    (heq : ∀ q ∈ t.ptrs, q ≠ t.ptr → h' q = h q) : t.Stored width h' parent' sibling' := by
  rw [ht.root] at hroot
  cases t with
  | leaf p x m => exact hroot
  | node p l r =>
      obtain ⟨-, hl, hr⟩ := ht
      rw [ptrs, List.nodup_cons, List.mem_append, not_or] at hn
      refine ⟨hroot, hl.congr fun q hq => heq q (by simp [hq]) ?_, hr.congr fun q hq => heq q (by simp [hq]) ?_⟩
      · rintro rfl
        exact hn.1.1 hq
      · rintro rfl
        exact hn.1.2 hq

/-- The subtrees of a stored tree are stored. -/
theorem Stored.of_mem {parent sibling : Option Ptr} {s t : Tree} (ht : t.Stored width h parent sibling)
    (hs : s ∈ t.subtrees) : ∃ parent' sibling', s.Stored width h parent' sibling' := by
  induction t generalizing parent sibling with
  | leaf p x m =>
      rw [List.mem_singleton.1 hs]
      exact ⟨_, _, ht⟩
  | node p l r ihl ihr =>
      rcases mem_subtrees_node.1 hs with rfl | hs | hs
      · exact ⟨_, _, ht⟩
      · exact ihl ht.2.1 hs
      · exact ihr ht.2.2 hs

/-- The words of a stored tree are its terminals. -/
theorem Stored.words {parent sibling : Option Ptr} {t : Tree} (ht : t.Stored width h parent sibling) :
    (h t.ptr).subtreeTerminals = encode width t.subtreeTerminals := by
  rw [ht.root]
  rfl

/-- **The words compare the smallest labels.** -/
theorem hasSmallestTerminal_iff {s t : Tree} (hs : (h s.ptr).subtreeTerminals = encode width s.subtreeTerminals)
    (ht : (h t.ptr).subtreeTerminals = encode width t.subtreeTerminals) (hsv : s.Valid) (htv : t.Valid)
    (hd : Disjoint s.subtreeTerminals t.subtreeTerminals) (hsw : Within width s.subtreeTerminals)
    (htw : Within width t.subtreeTerminals) : h.hasSmallestTerminal s.ptr t.ptr = true ↔ s.least < t.least := by
  rw [Nodes.hasSmallestTerminal, hs, ht, Bitset.hasSmallest_encode hd hsw htw]
  constructor
  · rintro ⟨x, hx, hall⟩
    exact (hsv.least_le hx).trans_lt (hall _ (labels_subset_subtreeTerminals t t.least_mem_labels))
  · exact fun hlt => ⟨_, labels_subset_subtreeTerminals s s.least_mem_labels, fun y hy =>
      hlt.trans_le (htv.least_le hy)⟩

/-! ### The nodes above a subtree -/

/-- The nodes above the subtree `c`, from its parent to the root. -/
def pathTo : Tree → Tree → Option (List Tree)
  | leaf .., _ => none
  | node p l r, c =>
      if l = c ∨ r = c then some [node p l r]
      else
        match l.pathTo c with
        | some P => some (P ++ [node p l r])
        | none => (r.pathTo c).map (· ++ [node p l r])

/-- **Induction along a path**: the parent is the root, or the path goes on in one
of the two subtrees. -/
theorem pathTo_induction {c : Tree} {motive : Tree → List Tree → Prop}
    (parent : ∀ p l r, l = c ∨ r = c → motive (node p l r) [node p l r])
    (left : ∀ p l r Q, l ≠ c → r ≠ c → l.pathTo c = some Q → motive l Q → motive (node p l r) (Q ++ [node p l r]))
    (right : ∀ p l r Q, l ≠ c → r ≠ c → l.pathTo c = none → r.pathTo c = some Q → motive r Q →
      motive (node p l r) (Q ++ [node p l r])) {t : Tree} {P : List Tree} (hP : t.pathTo c = some P) :
    motive t P := by
  induction t generalizing P with
  | leaf => cases hP
  | node p l r ihl ihr =>
      unfold pathTo at hP
      split_ifs at hP with hc
      · obtain rfl := Option.some.inj hP
        exact parent p l r hc
      · rw [not_or] at hc
        cases hl : l.pathTo c with
        | some Q =>
            rw [hl] at hP
            obtain rfl := Option.some.inj hP
            exact left p l r Q hc.1 hc.2 hl (ihl hl)
        | none =>
            rw [hl] at hP
            obtain ⟨Q, hQ, rfl⟩ := Option.map_eq_some_iff.1 hP
            exact right p l r Q hc.1 hc.2 hl hQ (ihr hQ)

/-- There is a path to every proper subtree. -/
theorem exists_pathTo {t c : Tree} (h : c ∈ t.subtrees) (hne : c ≠ t) : ∃ P, t.pathTo c = some P := by
  induction t with
  | leaf => exact absurd (List.mem_singleton.1 h) hne
  | node p l r ihl ihr =>
      unfold pathTo
      split_ifs with hc
      · exact ⟨_, rfl⟩
      · rw [not_or] at hc
        cases hl : l.pathTo c with
        | some Q => exact ⟨_, rfl⟩
        | none =>
            rcases (mem_subtrees_node.1 h).resolve_left hne with h | h
            · obtain ⟨Q, hQ⟩ := ihl h (Ne.symm hc.1)
              rw [hl] at hQ
              cases hQ
            · obtain ⟨Q, hQ⟩ := ihr h (Ne.symm hc.2)
              exact ⟨_, by rw [hQ]; rfl⟩

/-- The path starts with the parent. -/
theorem pathTo_head {t c : Tree} {P : List Tree} (hP : t.pathTo c = some P) :
    ∃ p l r Q, P = node p l r :: Q ∧ (l = c ∨ r = c) := by
  refine pathTo_induction (motive := fun _ P => ∃ p l r Q, P = node p l r :: Q ∧ (l = c ∨ r = c))
    (fun p l r hc => ⟨p, l, r, [], rfl, hc⟩) ?_ ?_ hP
  · rintro p l r _ - - - ⟨p', l', r', Q, rfl, hc⟩
    exact ⟨p', l', r', Q ++ [node p l r], rfl, hc⟩
  · rintro p l r _ - - - - ⟨p', l', r', Q, rfl, hc⟩
    exact ⟨p', l', r', Q ++ [node p l r], rfl, hc⟩

/-- The path ends with the root. -/
theorem pathTo_last {t c : Tree} {P : List Tree} (hP : t.pathTo c = some P) : ∃ Q, P = Q ++ [t] :=
  pathTo_induction (motive := fun t P => ∃ Q, P = Q ++ [t]) (fun _ _ _ _ => ⟨[], rfl⟩)
    (fun _ _ _ Q _ _ _ _ => ⟨Q, rfl⟩) (fun _ _ _ Q _ _ _ _ _ => ⟨Q, rfl⟩) hP

/-- The nodes of the path are inner nodes around `c`. -/
theorem mem_of_mem_pathTo {t c : Tree} {P : List Tree} (hP : t.pathTo c = some P) :
    c ∈ t.subtrees ∧ ∀ a ∈ P, a ∈ t.subtrees ∧ c ∈ a.subtrees ∧ a.isTerminal = false := by
  refine pathTo_induction (motive := fun t P => c ∈ t.subtrees ∧
    ∀ a ∈ P, a ∈ t.subtrees ∧ c ∈ a.subtrees ∧ a.isTerminal = false) ?_ ?_ ?_ hP
  · intro p l r hc
    have hmem : c ∈ (node p l r).subtrees := by
      rcases hc with rfl | rfl
      · exact mem_subtrees_node.2 (Or.inr (Or.inl (mem_subtrees_self _)))
      · exact mem_subtrees_node.2 (Or.inr (Or.inr (mem_subtrees_self _)))
    refine ⟨hmem, fun a ha => ?_⟩
    rw [List.mem_singleton.1 ha]
    exact ⟨mem_subtrees_self _, hmem, rfl⟩
  · rintro p l r Q - - - ⟨hc, hQ⟩
    have hmem : c ∈ (node p l r).subtrees := mem_subtrees_node.2 (Or.inr (Or.inl hc))
    refine ⟨hmem, fun a ha => ?_⟩
    rcases List.mem_append.1 ha with ha | ha
    · obtain ⟨h₁, h₂⟩ := hQ a ha
      exact ⟨mem_subtrees_node.2 (Or.inr (Or.inl h₁)), h₂⟩
    · rw [List.mem_singleton.1 ha]
      exact ⟨mem_subtrees_self _, hmem, rfl⟩
  · rintro p l r Q - - - - ⟨hc, hQ⟩
    have hmem : c ∈ (node p l r).subtrees := mem_subtrees_node.2 (Or.inr (Or.inr hc))
    refine ⟨hmem, fun a ha => ?_⟩
    rcases List.mem_append.1 ha with ha | ha
    · obtain ⟨h₁, h₂⟩ := hQ a ha
      exact ⟨mem_subtrees_node.2 (Or.inr (Or.inr h₁)), h₂⟩
    · rw [List.mem_singleton.1 ha]
      exact ⟨mem_subtrees_self _, hmem, rfl⟩

/-- Two trees that lie in each other are equal. -/
theorem subtrees_antisymm {s t : Tree} (hs : s ∈ t.subtrees) (ht : t ∈ s.subtrees) : s = t := by
  have smaller : ∀ {a b : Tree}, a ∈ b.subtrees → a = b ∨ sizeOf a < sizeOf b := by
    intro a b h
    induction b with
    | leaf => exact Or.inl (List.mem_singleton.1 h)
    | node p l r ihl ihr =>
        simp only [node.sizeOf_spec]
        rcases mem_subtrees_node.1 h with h | h | h
        · exact Or.inl h
        · rcases ihl h with rfl | h
          · omega
          · omega
        · rcases ihr h with rfl | h
          · omega
          · omega
  rcases smaller hs with h | h
  · exact h
  · rcases smaller ht with h' | h'
    · exact h'.symm
    · omega

/-- **The path meets all nodes above `c`.** -/
theorem mem_pathTo {t c : Tree} {P : List Tree} (hP : t.pathTo c = some P) (hn : t.ptrs.Nodup) {u : Tree}
    (hu : u ∈ t.subtrees) (hc : c ∈ u.subtrees) (hne : u ≠ c) : u ∈ P := by
  have apart : ∀ {p l r}, (node p l r).ptrs.Nodup → ∀ {w : Tree}, w ∈ l.subtrees → w ∉ r.subtrees := by
    intro p l r hn w hl hr
    rw [ptrs, List.nodup_cons, List.nodup_append] at hn
    exact hn.2.2.2 _ (ptr_mem_ptrs hl) _ (ptr_mem_ptrs hr) rfl
  refine pathTo_induction (motive := fun t P => t.ptrs.Nodup → u ∈ t.subtrees → u ∈ P) ?_ ?_ ?_ hP hn hu
  · intro p l r hlr hn hu
    rw [List.mem_singleton]
    rcases mem_subtrees_node.1 hu with h | h | h
    · exact h
    · rcases hlr with rfl | rfl
      · exact absurd (subtrees_antisymm h hc) hne
      · exact absurd (mem_subtrees_self _) (apart hn (subtrees_trans hc h))
    · rcases hlr with rfl | rfl
      · exact absurd (subtrees_trans hc h) (apart hn (mem_subtrees_self _))
      · exact absurd (subtrees_antisymm h hc) hne
  · intro p l r Q _ _ hQ ih hn hu
    rw [List.mem_append, List.mem_singleton]
    rcases mem_subtrees_node.1 hu with h | h | h
    · exact Or.inr h
    · rw [ptrs, List.nodup_cons, List.nodup_append] at hn
      exact Or.inl (ih hn.2.1 h)
    · exact absurd (subtrees_trans hc h) (apart hn (mem_of_mem_pathTo hQ).1)
  · intro p l r Q _ _ _ hQ ih hn hu
    rw [List.mem_append, List.mem_singleton]
    rcases mem_subtrees_node.1 hu with h | h | h
    · exact Or.inr h
    · exact absurd (mem_of_mem_pathTo hQ).1 (apart hn (subtrees_trans hc h))
    · rw [ptrs, List.nodup_cons, List.nodup_append] at hn
      exact Or.inl (ih hn.2.2.1 h)

/-- The addresses of the path lie in the tree. -/
theorem ptr_mem_of_mem_pathTo {t c a : Tree} {P : List Tree} (hP : t.pathTo c = some P) (ha : a ∈ P) :
    a.ptr ∈ t.ptrs := ptr_mem_ptrs ((mem_of_mem_pathTo hP).2 a ha).1

/-- A path with one more node has no node twice. -/
theorem nodup_map_ptr_append {Q : List Tree} {t : Tree} (hQ : (Q.map ptr).Nodup) (hne : ∀ a ∈ Q, a.ptr ≠ t.ptr) :
    ((Q ++ [t]).map ptr).Nodup := by
  rw [List.map_append, List.nodup_append]
  refine ⟨hQ, List.nodup_singleton _, fun x hx y hy => ?_⟩
  obtain ⟨a, ha, rfl⟩ := List.mem_map.1 hx
  rw [List.map_singleton, List.mem_singleton] at hy
  rw [hy]
  exact hne a ha

/-- The path meets no address twice. -/
theorem nodup_pathTo {t c : Tree} {P : List Tree} (hP : t.pathTo c = some P) (hn : t.ptrs.Nodup) :
    (P.map ptr).Nodup := by
  refine pathTo_induction (motive := fun t P => t.ptrs.Nodup → (P.map ptr).Nodup) (fun p l r _ _ => ?_) ?_ ?_
    hP hn
  · simp
  · intro p l r Q _ _ hl ih hn
    rw [ptrs, List.nodup_cons, List.mem_append, not_or] at hn
    refine nodup_map_ptr_append (ih (List.nodup_append.1 hn.2).1) fun a ha he => hn.1.1 ?_
    rw [← ptr_node p l r, ← he]
    exact ptr_mem_of_mem_pathTo hl ha
  · intro p l r Q _ _ _ hr ih hn
    rw [ptrs, List.nodup_cons, List.mem_append, not_or] at hn
    refine nodup_map_ptr_append (ih (List.nodup_append.1 hn.2).2.1) fun a ha he => hn.1.2 ?_
    rw [← ptr_node p l r, ← he]
    exact ptr_mem_of_mem_pathTo hr ha

/-- A node is not below one of its children. -/
theorem node_ne_of_mem {p : Ptr} {l r u : Tree} (hu : u ∈ l.subtrees ∨ u ∈ r.subtrees) : node p l r ≠ u := by
  rintro rfl
  rcases hu with hu | hu
  · have := congrArg sizeOf (subtrees_antisymm hu (mem_subtrees_node.2 (Or.inr (Or.inl (mem_subtrees_self l)))))
    simp only [node.sizeOf_spec] at this
    omega
  · have := congrArg sizeOf (subtrees_antisymm hu (mem_subtrees_node.2 (Or.inr (Or.inr (mem_subtrees_self r)))))
    simp only [node.sizeOf_spec] at this
    omega

/-- A path to a subtree does not pass through it. -/
theorem ne_of_mem_pathTo {t c : Tree} {P : List Tree} (hP : t.pathTo c = some P) : ∀ u ∈ P, u ≠ c := by
  refine pathTo_induction (motive := fun _ P => ∀ u ∈ P, u ≠ c) (fun p l r hlr u hu => ?_)
    (fun p l r Q _ _ hQ ih u hu => ?_) (fun p l r Q _ _ _ hQ ih u hu => ?_) hP
  · rw [List.mem_singleton.1 hu]
    refine node_ne_of_mem (hlr.imp ?_ ?_)
    · exact fun h => h ▸ mem_subtrees_self l
    · exact fun h => h ▸ mem_subtrees_self r
  · rcases List.mem_append.1 hu with hu | hu
    · exact ih u hu
    · rw [List.mem_singleton.1 hu]
      exact node_ne_of_mem (Or.inl (mem_of_mem_pathTo hQ).1)
  · rcases List.mem_append.1 hu with hu | hu
    · exact ih u hu
    · rw [List.mem_singleton.1 hu]
      exact node_ne_of_mem (Or.inr (mem_of_mem_pathTo hQ).1)

/-- The subtree and all below it are not on the path above. -/
theorem notMem_pathTo {t c : Tree} (hn : t.ptrs.Nodup) {P : List Tree} (hP : t.pathTo c = some P) {x : Ptr}
    (hx : x ∈ c.ptrs) : x ∉ P.map ptr := by
  intro hmem
  obtain ⟨u, hu, rfl⟩ := List.mem_map.1 hmem
  obtain ⟨hct, hmemP⟩ := mem_of_mem_pathTo hP
  obtain ⟨hut, hcu, -⟩ := hmemP u hu
  rw [← map_ptr_subtrees] at hx
  obtain ⟨w, hw, hwu⟩ := List.mem_map.1 hx
  obtain rfl := eq_of_ptr_eq hn (subtrees_trans hw hct) hut hwu
  exact ne_of_mem_pathTo hP w hu (subtrees_antisymm hw hcu)

/-- **The stored path is the chain of parents.** -/
theorem Stored.parentChain {parent sibling : Option Ptr} {t c : Tree} {P : List Tree}
    (ht : t.Stored width h parent sibling) (hP : t.pathTo c = some P) :
    h.ParentChain (h c.ptr).parent (P.map ptr) parent := by
  refine pathTo_induction (motive := fun t P => ∀ parent sibling, t.Stored width h parent sibling →
    h.ParentChain (h c.ptr).parent (P.map ptr) parent) ?_ ?_ ?_ hP _ _ ht
  · intro p l r hc parent sibling ht
    refine ⟨?_, by rw [ptr_node, ht.1]; rfl⟩
    rcases hc with rfl | rfl
    · rw [ht.2.1.root]; rfl
    · rw [ht.2.2.root]; rfl
  · intro p l r Q _ _ _ ih parent sibling ht
    rw [List.map_append]
    exact (ih _ _ ht.2.1).append ⟨rfl, by rw [ptr_node, ht.1]; rfl⟩
  · intro p l r Q _ _ _ _ ih parent sibling ht
    rw [List.map_append]
    exact (ih _ _ ht.2.2).append ⟨rfl, by rw [ptr_node, ht.1]; rfl⟩

/-- A stored inner node and its children. -/
theorem Stored.children {parent sibling : Option Ptr} {t l r : Tree} {q : Ptr}
    (ht : t.Stored width h parent sibling) (hq : node q l r ∈ t.subtrees) :
    (h q).leftChild = some l.ptr ∧ (h q).rightChild = some r.ptr ∧
      l.Stored width h (some q) (some r.ptr) ∧ r.Stored width h (some q) (some l.ptr) := by
  obtain ⟨par, sib, hs⟩ := ht.of_mem hq
  exact ⟨by rw [hs.1]; rfl, by rw [hs.1]; rfl, hs.2⟩

/-- An inner node of a path, with its children. -/
theorem exists_node_of_mem_pathTo {t c : Tree} {P : List Tree} (hP : t.pathTo c = some P) {x : Ptr}
    (hx : x ∈ P.map ptr) : ∃ l r, node x l r ∈ P ∧ node x l r ∈ t.subtrees := by
  obtain ⟨a, ha, rfl⟩ := List.mem_map.1 hx
  obtain ⟨hat, -, hnode⟩ := (mem_of_mem_pathTo hP).2 a ha
  cases a with
  | leaf => cases hnode
  | node q l r => exact ⟨l, r, ha, hat⟩

/-- A path leads along inner nodes. -/
theorem Stored.inner {parent sibling : Option Ptr} {t c : Tree} {P : List Tree}
    (ht : t.Stored width h parent sibling) (hP : t.pathTo c = some P) : h.Inner (P.map ptr) := by
  intro x hx
  obtain ⟨l, r, -, hmem⟩ := exists_node_of_mem_pathTo hP hx
  obtain ⟨hl, hr, -⟩ := ht.children hmem
  simp [hl, hr]

/-- The children of a path lie on it or beside it. -/
theorem Stored.childrenBehind {sibling : Option Ptr} {t c : Tree} {P : List Tree}
    (ht : t.Stored width h none sibling) (hP : t.pathTo c = some P) (hn : t.ptrs.Nodup) :
    h.ChildrenBehind (P.map ptr) := by
  refine (ht.parentChain hP).childrenBehind (nodup_pathTo hP hn) fun q hq x hx => ?_
  obtain ⟨l, r, -, hmem⟩ := exists_node_of_mem_pathTo hP hq
  obtain ⟨hl, hr, hls, hrs⟩ := ht.children hmem
  rw [hl, hr, Option.some.injEq, Option.some.injEq] at hx
  rcases hx with rfl | rfl
  · rw [hls.root]; rfl
  · rw [hrs.root]; rfl

/-- The children of a stored node are in order. -/
theorem Stored.ordered {parent sibling : Option Ptr} {t l r : Tree} {q : Ptr}
    (ht : t.Stored width h parent sibling) (hv : t.Valid) (hw : Within width t.subtreeTerminals)
    (hq : node q l r ∈ t.subtrees) :
    h.hasSmallestTerminal l.ptr r.ptr = true ∧ h.hasSmallestTerminal r.ptr l.ptr = false := by
  obtain ⟨-, -, hls, hrs⟩ := ht.children hq
  obtain ⟨hlv, hrv, hd, hlt⟩ := hv.of_mem_subtrees hq
  have hwq := hw.mono (subtreeTerminals_subset_of_mem_subtrees hq)
  have hwl := hwq.mono (show l.subtreeTerminals ⊆ (node q l r).subtreeTerminals from Finset.subset_union_left)
  have hwr := hwq.mono (show r.subtreeTerminals ⊆ (node q l r).subtreeTerminals from Finset.subset_union_right)
  refine ⟨(hasSmallestTerminal_iff hls.words hrs.words hlv hrv hd hwl hwr).2 hlt, ?_⟩
  rw [Bool.eq_false_iff, Ne, hasSmallestTerminal_iff hrs.words hls.words hrv hlv hd.symm hwr hwl]
  exact not_lt.2 hlt.le

/-- The children of a stored node point back to it. -/
theorem Stored.parent_of_child {parent sibling : Option Ptr} {t : Tree}
    (ht : t.Stored width h parent sibling) {x y : Ptr} (hx : x ∈ t.ptrs)
    (hy : (h x).leftChild = some y ∨ (h x).rightChild = some y) : y ∈ t.ptrs ∧ (h y).parent = some x := by
  rw [← map_ptr_subtrees] at hx
  obtain ⟨s, hs, rfl⟩ := List.mem_map.1 hx
  cases s with
  | leaf q l m =>
      obtain ⟨par, sib, hst⟩ := ht.of_mem hs
      rw [hst.root] at hy
      simp [record, leftPtr, rightPtr] at hy
  | node q l r =>
      obtain ⟨hl, hr, hls, hrs⟩ := ht.children hs
      rw [ptr_node, hl, hr, Option.some.injEq, Option.some.injEq] at hy
      obtain ⟨hlt, hrt⟩ := mem_subtrees_children hs
      rcases hy with rfl | rfl
      · exact ⟨ptr_mem_ptrs hlt, by rw [hls.root]; rfl⟩
      · exact ⟨ptr_mem_ptrs hrt, by rw [hrs.root]; rfl⟩

/-- The parent of a node of the tree lies in it, apart from that of the root. -/
theorem Stored.parent_mem {parent sibling : Option Ptr} {t : Tree} (ht : t.Stored width h parent sibling) {x y : Ptr}
    (hx : x ∈ t.ptrs) (hy : (h x).parent = some y) : x = t.ptr ∧ parent = some y ∨ y ∈ t.ptrs := by
  induction t generalizing parent sibling with
  | leaf p l m =>
      rw [ptrs, List.mem_singleton] at hx
      rw [hx, show h p = _ from ht] at hy
      exact Or.inl ⟨hx, hy⟩
  | node p l r ihl ihr =>
      rw [ptrs, List.mem_cons, List.mem_append] at hx
      rcases hx with rfl | hx | hx
      · rw [show h x = _ from ht.1] at hy
        exact Or.inl ⟨rfl, hy⟩
      · rcases ihl ht.2.1 hx with ⟨-, he⟩ | hmem
        · exact Or.inr (by simp [Option.some.inj he])
        · exact Or.inr (by simp [hmem])
      · rcases ihr ht.2.2 hx with ⟨-, he⟩ | hmem
        · exact Or.inr (by simp [Option.some.inj he])
        · exact Or.inr (by simp [hmem])

/-- A set of addresses that holds the parents of its nodes holds the root of a tree
that it meets. -/
theorem Stored.root_mem {parent sibling : Option Ptr} {t : Tree} (ht : t.Stored width h parent sibling) {D : Set Ptr}
    (hD : ∀ x ∈ D, ∀ y, (h x).parent = some y → y ∈ D) {x : Ptr} (hx : x ∈ t.ptrs) (hxD : x ∈ D) : t.ptr ∈ D := by
  induction t generalizing parent sibling with
  | leaf p l m =>
      rw [ptrs, List.mem_singleton] at hx
      exact hx ▸ hxD
  | node p l r ihl ihr =>
      rw [ptrs, List.mem_cons, List.mem_append] at hx
      rcases hx with rfl | hx | hx
      · exact hxD
      · exact hD _ (ihl ht.2.1 hx) p (by rw [ht.2.1.root]; rfl)
      · exact hD _ (ihr ht.2.2 hx) p (by rw [ht.2.2.root]; rfl)

/-- Siblings point to each other. -/
theorem Stored.sibling_of_sibling {parent sibling : Option Ptr} {t : Tree}
    (ht : t.Stored width h parent sibling) {x y : Ptr} (hx : x ∈ t.ptrs) (hy : (h x).sibling = some y) :
    x = t.ptr ∧ sibling = some y ∨ y ∈ t.ptrs ∧ (h y).sibling = some x := by
  induction t generalizing parent sibling with
  | leaf p l m =>
      rw [ptrs, List.mem_singleton] at hx
      rw [hx, show h p = _ from ht] at hy
      exact Or.inl ⟨hx, hy⟩
  | node p l r ihl ihr =>
      rw [ptrs, List.mem_cons, List.mem_append] at hx
      rcases hx with rfl | hx | hx
      · rw [show h x = _ from ht.1] at hy
        exact Or.inl ⟨rfl, hy⟩
      · refine Or.inr ?_
        rcases ihl ht.2.1 hx with ⟨rfl, he⟩ | ⟨hmem, he⟩
        · obtain rfl := Option.some.inj he
          exact ⟨by simp [ptr_mem_ptrs (mem_subtrees_self r)], by rw [ht.2.2.root]; rfl⟩
        · exact ⟨by simp [hmem], he⟩
      · refine Or.inr ?_
        rcases ihr ht.2.2 hx with ⟨rfl, he⟩ | ⟨hmem, he⟩
        · obtain rfl := Option.some.inj he
          exact ⟨by simp [ptr_mem_ptrs (mem_subtrees_self l)], by rw [ht.2.1.root]; rfl⟩
        · exact ⟨by simp [hmem], he⟩

/-- **Climbing back.**  Memory that differs from the stored tree only on a path, in
the words and the order of children, is restored by the climb that restores the
words. -/
theorem Stored.restore {sibling : Option Ptr} {t c : Tree} {P : List Tree} {h₄ : Nodes}
    (ht : t.Stored width h none sibling) (hv : t.Valid) (hn : t.ptrs.Nodup)
    (hw : Within width t.subtreeTerminals) (hP : t.pathTo c = some P)
    {op : Bitset.Word → Bitset.Word → Bitset.Word} {d : List Bitset.Word}
    (hout : ∀ x ∉ P.map ptr, h₄ x = h x)
    (hin : ∀ x ∈ P.map ptr, (h₄ x).parent = (h x).parent ∧ (h₄ x).sibling = (h x).sibling ∧
      List.zipWith op (h₄ x).subtreeTerminals d = (h x).subtreeTerminals ∧
      ((h₄ x).leftChild = (h x).leftChild ∧ (h₄ x).rightChild = (h x).rightChild ∨
        (h₄ x).leftChild = (h x).rightChild ∧ (h₄ x).rightChild = (h x).leftChild))
    {guarded : Bool} {fuel : ℕ} (hfuel : P.length ≤ fuel) (root : Ptr) :
    h₄.propagate op d guarded fuel root (h c.ptr).parent = some (t.ptr, h) := by
  have hchain := ht.parentChain hP
  have hswap : ∀ x ∈ P.map ptr, ∀ y, (h₄ x).leftChild = some y ∨ (h₄ x).rightChild = some y →
      (h x).leftChild = some y ∨ (h x).rightChild = some y := by
    intro x hx y hy
    rcases (hin x hx).2.2.2 with ⟨hl, hr⟩ | ⟨hl, hr⟩
    · rwa [hl, hr] at hy
    · rw [hl, hr] at hy
      exact hy.symm
  have hinner : h₄.Inner (P.map ptr) := by
    intro x hx
    obtain ⟨hl, hr⟩ := ht.inner hP x hx
    rcases (hin x hx).2.2.2 with ⟨hl', hr'⟩ | ⟨hl', hr'⟩
    · rw [hl', hr']
      exact ⟨hl, hr⟩
    · rw [hl', hr']
      exact ⟨hr, hl⟩
  rw [Nodes.propagate_eq (hchain.congr fun x hx => (hin x hx).1) (nodup_pathTo hP hn)
    ((ht.childrenBehind hP hn).congr hswap) (Or.inr hinner) (by rwa [List.length_map]), Option.some.injEq,
    Prod.mk.injEq]
  constructor
  · obtain ⟨Q, rfl⟩ := pathTo_last hP
    rw [List.map_append, List.map_singleton, List.getLastD_concat]
  -- the words are the old ones everywhere
  have hwords : ∀ x, (Nodes.addLabels op d (P.map ptr) h₄ x).subtreeTerminals = (h x).subtreeTerminals := by
    intro x
    by_cases hx : x ∈ P.map ptr
    · rw [Nodes.addLabels_of_mem hx]
      exact (hin x hx).2.2.1
    · rw [Nodes.addLabels_of_notMem hx, hout x hx]
  funext x
  by_cases hx : x ∈ P.map ptr
  · rw [Nodes.sortAll_of_mem hx, Nodes.addLabels_of_mem hx,
      Nodes.withSortedChildren_congr fun y _ => hwords y]
    obtain ⟨l, r, -, hmem⟩ := exists_node_of_mem_pathTo hP hx
    obtain ⟨hl, hr, -⟩ := ht.children hmem
    obtain ⟨hlr, hrl⟩ := ht.ordered hv hw hmem
    obtain ⟨hpar, hsib, hd, hch⟩ := hin x hx
    rw [Nodes.withLabels, hd]
    cases hn₄ : h₄ x with
    | mk par sib lc rc ws =>
      cases hn : h x with
      | mk par' sib' lc' rc' ws' =>
        rw [hn] at hl hr
        simp only [hn₄, hn] at hpar hsib hch hl hr ⊢
        subst hpar hsib hl hr
        rcases hch with ⟨rfl, rfl⟩ | ⟨rfl, rfl⟩
        · simp [Nodes.withSortedChildren, hrl]
        · simp [Nodes.withSortedChildren, hlr]
  · rw [Nodes.sortAll_of_notMem hx, Nodes.addLabels_of_notMem hx, hout x hx]

end Tree

namespace Forest

variable {width : ℕ} {s : Store} {F : Forest}

/-- The trees have no address in common. -/
theorem notMem_of_split {A B : Forest} {t : Tree} (hn : (A ++ t :: B).ptrs.Nodup) :
    t.ptrs.Nodup ∧ ∀ u ∈ A ++ B, ∀ x ∈ u.ptrs, x ∉ t.ptrs := by
  rw [ptrs, List.flatMap_append, List.flatMap_cons, List.nodup_append, List.nodup_append] at hn
  obtain ⟨-, ⟨hnt, -, hB⟩, hA⟩ := hn
  refine ⟨hnt, fun u hu x hx hxt => ?_⟩
  rcases List.mem_append.1 hu with hu | hu
  · exact hA x (List.mem_flatMap.2 ⟨u, hu, hx⟩) x (List.mem_append_left _ hxt) rfl
  · exact hB x hxt x (List.mem_flatMap.2 ⟨u, hu, hx⟩) rfl

/-- **The forest in memory**: `Roots` lists its trees, and all nodes are as the
trees say. -/
structure Stored (width : ℕ) (s : Store) (F : Forest) : Prop where
  roots : s.roots = F.map Tree.ptr
  trees : ∀ t ∈ F, t.Stored width s.nodes none none

/-- A well-formed forest whose labels fit into the words. -/
structure WellFormed (width : ℕ) (s : Store) (F : Forest) : Prop where
  valid : F.Valid
  within : ∀ t ∈ F, Within width t.subtreeTerminals
  stored : Stored width s F

/-- The memory of a forest, from what the forest says of its nodes. -/
def toStore (width : ℕ) (F : Forest) : Store where
  nodes p :=
    match F.nodeAt p with
    | none => {}
    | some n => n.record width ((F.parent n).map Tree.ptr) ((F.sibling n).map Tree.ptr)
  roots := F.map Tree.ptr
  labelToTerminal x := (F.labelToTerminal x).map Tree.ptr
  terminalToLabel p := (F.nodeAt p).bind Tree.terminalToLabel

/-- **Every forest can be stored.** -/
theorem toStore_wellFormed (hF : F.Valid) (hw : ∀ t ∈ F, Within width t.subtreeTerminals) :
    F.WellFormed width (F.toStore width) := by
  have key : ∀ t ∈ F.subtrees, t.Stored width (F.toStore width).nodes ((F.parent t).map Tree.ptr)
      ((F.sibling t).map Tree.ptr) := by
    intro t
    induction t with
    | leaf p x m =>
        intro ht
        show (F.toStore width).nodes (Tree.leaf p x m).ptr = _
        simp only [toStore, nodeAt_ptr hF.nodup ht]
    | node p l r ihl ihr =>
        intro ht
        obtain ⟨hl, hr⟩ := mem_subtrees_children ht
        refine ⟨?_, ?_, ?_⟩
        · show (F.toStore width).nodes (Tree.node p l r).ptr = _
          simp only [toStore, nodeAt_ptr hF.nodup ht]
        · have h := ihl hl
          rwa [(parent_eq_some_iff hF.distinct).2 ⟨ht, Or.inl rfl⟩,
            (sibling_eq_some_iff hF.distinct).2 ⟨p, Or.inl ht⟩] at h
        · have h := ihr hr
          rwa [(parent_eq_some_iff hF.distinct).2 ⟨ht, Or.inr rfl⟩,
            (sibling_eq_some_iff hF.distinct).2 ⟨p, Or.inr ht⟩] at h
  refine ⟨hF, hw, rfl, fun t ht => ?_⟩
  have h := key t (mem_subtrees.2 ⟨t, ht, Tree.mem_subtrees_self t⟩)
  have hpar := parent_eq_none_of_mem hF.distinct ht
  have hsib : F.sibling t = none := by rw [sibling, hpar]; rfl
  rwa [hpar, hsib] at h

end Forest
end Maf
