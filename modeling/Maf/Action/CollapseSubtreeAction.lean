/-
# Collapsing a subtree

`src/Solver/Action/CollapseSubtreeAction.cpp`.  `doAction` takes the children from
a node and makes it the terminal of all labels below it, under the smallest of
them; it remembers the children and the entries of the two maps that it writes
over, and `undoAction` writes them back.

In the forest the subtree is replaced by one leaf (`Forest.collapse`).  The two
maps stay those of the forest (`Forest.Indexed`), and undoing restores the memory
(`exists_collapse`).
-/

import Maf.Action.DeleteEdgeInMemory

namespace Maf

open Bitset (encode Within)
open Graph

namespace Tree

/-- The terminal of all labels of the tree. -/
def collapsed (t : Tree) : Tree := leaf t.ptr t.least (t.subtreeTerminals.erase t.least)

/-- The tree with the subtree at the address `p` collapsed. -/
def collapse (p : Ptr) : Tree → Tree
  | leaf q x m => leaf q x m
  | node q l r => if q = p then (node q l r).collapsed else node q (l.collapse p) (r.collapse p)

/-- The least label is among the terminals. -/
theorem least_mem (t : Tree) : t.least ∈ t.subtreeTerminals :=
  labels_subset_subtreeTerminals t t.least_mem_labels

/-- A collapsed tree keeps its terminals. -/
@[simp] theorem subtreeTerminals_collapsed (t : Tree) : t.collapsed.subtreeTerminals = t.subtreeTerminals :=
  Finset.insert_erase t.least_mem

/-- Collapsing moves no root. -/
@[simp] theorem ptr_collapse (p : Ptr) (t : Tree) : (t.collapse p).ptr = t.ptr := by
  cases t with
  | leaf => rfl
  | node q l r =>
      unfold collapse
      split_ifs <;> rfl

/-- Collapsing keeps the terminals. -/
@[simp] theorem subtreeTerminals_collapse (p : Ptr) (t : Tree) :
    (t.collapse p).subtreeTerminals = t.subtreeTerminals := by
  induction t with
  | leaf => rfl
  | node q l r ihl ihr =>
      unfold collapse
      split_ifs
      · exact subtreeTerminals_collapsed _
      · rw [subtreeTerminals, ihl, ihr, subtreeTerminals]

/-- Collapsing keeps the least label. -/
@[simp] theorem least_collapse (p : Ptr) (t : Tree) : (t.collapse p).least = t.least := by
  induction t with
  | leaf => rfl
  | node q l r ihl ihr =>
      unfold collapse
      split_ifs
      · rfl
      · rw [least_node, ihl, ihr, least_node]

/-- A collapsed tree is valid. -/
theorem Valid.collapsed {t : Tree} (ht : t.Valid) : t.collapsed.Valid :=
  ⟨ht.pos, fun _ hx => lt_of_le_of_ne (ht.least_le (Finset.mem_of_mem_erase hx)) (Finset.ne_of_mem_erase hx).symm⟩

/-- Collapsing keeps a tree valid. -/
theorem Valid.collapse {t : Tree} (ht : t.Valid) (p : Ptr) : (t.collapse p).Valid := by
  induction t with
  | leaf => exact ht
  | node q l r ihl ihr =>
      unfold Tree.collapse
      split_ifs
      · exact ht.collapsed
      · refine ⟨ihl ht.1, ihr ht.2.1, ?_, ?_⟩
        · rw [subtreeTerminals_collapse, subtreeTerminals_collapse]
          exact ht.2.2.1
        · rw [least_collapse, least_collapse]
          exact ht.2.2.2

/-- Addresses only disappear. -/
theorem ptrs_collapse (p : Ptr) (t : Tree) : (t.collapse p).ptrs.Sublist t.ptrs := by
  induction t with
  | leaf => exact List.Sublist.refl _
  | node q l r ihl ihr =>
      unfold collapse
      split_ifs
      · exact (List.nil_sublist _).cons_cons q
      · exact (ihl.append ihr).cons_cons q

/-- A tree without the node stays. -/
theorem collapse_of_notMem {p : Ptr} {t : Tree} (hp : p ∉ t.ptrs) : t.collapse p = t := by
  induction t with
  | leaf => rfl
  | node q l r ihl ihr =>
      simp only [ptrs, List.mem_cons, List.mem_append, not_or] at hp
      rw [collapse, if_neg (Ne.symm hp.1), ihl hp.2.1, ihr hp.2.2]

/-- **The terminals after the collapse** are those outside the subtree and the new one. -/
theorem leaf_mem_collapse {p : Ptr} {l r t : Tree} (ht : t.ptrs.Nodup) (hv : node p l r ∈ t.subtrees) {q : Ptr}
    {x : Label} {m : Finset Label} : leaf q x m ∈ (t.collapse p).subtrees ↔
      leaf q x m = (node p l r).collapsed ∨ leaf q x m ∈ t.subtrees ∧ q ∉ (node p l r).ptrs := by
  induction t with
  | leaf => cases List.mem_singleton.1 hv
  | node q' l' r' ihl ihr =>
      rw [ptrs, List.nodup_cons, List.mem_append, not_or, List.nodup_append] at ht
      have out : ∀ {u w : Tree}, node p l r ∈ u.subtrees → (∀ a ∈ u.ptrs, ∀ b ∈ w.ptrs, a ≠ b) →
          w.collapse p = w ∧ (leaf q x m ∈ w.subtrees → q ∉ (node p l r).ptrs) := by
        intro u w hu hd
        have hp := ptr_mem_ptrs hu
        refine ⟨collapse_of_notMem fun hmem => hd _ hp _ hmem rfl, fun hmem hq => ?_⟩
        exact hd _ (ptrs_subset_of_mem_subtrees hu hq) _ (ptr_mem_ptrs hmem) rfl
      unfold collapse
      split_ifs with hq
      · have he : node p l r = node q' l' r' := by
          refine eq_of_ptr_eq ?_ hv (mem_subtrees_self _) hq.symm
          rw [ptrs, List.nodup_cons, List.mem_append, not_or, List.nodup_append]
          exact ht
        rw [he]
        constructor
        · exact fun h => Or.inl (List.mem_singleton.1 h)
        · rintro (h | ⟨h, hno⟩)
          · exact List.mem_singleton.2 h
          · exact absurd (ptr_mem_ptrs h) hno
      · rw [mem_subtrees_node, mem_subtrees_node]
        rcases mem_subtrees_node.1 hv with he | hv | hv
        · cases he
          exact absurd rfl hq
        · obtain ⟨hr, hout⟩ := out hv ht.2.2.2
          rw [hr, ihl ht.2.1 hv]
          constructor
          · rintro (h | h | h)
            · cases h
            · exact h.imp_right fun h => ⟨Or.inr (Or.inl h.1), h.2⟩
            · exact Or.inr ⟨Or.inr (Or.inr h), hout h⟩
          · rintro (h | ⟨h | h | h, hno⟩)
            · exact Or.inr (Or.inl (Or.inl h))
            · cases h
            · exact Or.inr (Or.inl (Or.inr ⟨h, hno⟩))
            · exact Or.inr (Or.inr h)
        · obtain ⟨hl, hout⟩ := out hv fun a ha b hb he => ht.2.2.2 b hb a ha he.symm
          rw [hl, ihr ht.2.2.1 hv]
          constructor
          · rintro (h | h | h)
            · cases h
            · exact Or.inr ⟨Or.inr (Or.inl h), hout h⟩
            · exact h.imp_right fun h => ⟨Or.inr (Or.inr h.1), h.2⟩
          · rintro (h | ⟨h | h | h, hno⟩)
            · exact Or.inr (Or.inr (Or.inl h))
            · cases h
            · exact Or.inr (Or.inl h)
            · exact Or.inr (Or.inr (Or.inr ⟨h, hno⟩))

/-- The nodes of the subtree change, no other node does. -/
theorem Stored.collapse {width : ℕ} {h h' : Nodes} {p : Ptr} {t : Tree} {parent sibling : Option Ptr}
    (ht : t.Stored width h parent sibling) (hp : h' p = { h p with leftChild := none, rightChild := none })
    (hother : ∀ q, q ≠ p → h' q = h q) (hleaf : ∀ x m, leaf p x m ∉ t.subtrees) :
    (t.collapse p).Stored width h' parent sibling := by
  induction t generalizing parent sibling with
  | leaf q x m =>
      have hq : q ≠ p := fun he => hleaf x m (he ▸ mem_subtrees_self _)
      exact (hother q hq).trans ht
  | node q l r ihl ihr =>
      obtain ⟨hroot, hl, hr⟩ := ht
      unfold Tree.collapse
      split_ifs with hq
      · subst hq
        show h' q = record width parent sibling (node q l r).collapsed
        rw [record, subtreeTerminals_collapsed, hp, hroot]
        rfl
      · refine ⟨(hother q hq).trans (hroot.trans ?_), ?_, ?_⟩
        · simp only [record, leftPtr, rightPtr, ptr_collapse, subtreeTerminals, subtreeTerminals_collapse]
        · rw [ptr_collapse]
          exact ihl hl fun x m hx => hleaf x m (mem_subtrees_node.2 (Or.inr (Or.inl hx)))
        · rw [ptr_collapse]
          exact ihr hr fun x m hx => hleaf x m (mem_subtrees_node.2 (Or.inr (Or.inr hx)))

end Tree

namespace Forest

variable {width : ℕ} {s : Store} {F : Forest}

/-- The forest with the subtree at the address `p` collapsed. -/
def collapse (p : Ptr) (F : Forest) : Forest := F.map (Tree.collapse p)

/-- Collapsing frees nodes and makes none. -/
theorem ptrs_collapse (p : Ptr) (F : Forest) : (F.collapse p).ptrs.Sublist F.ptrs := by
  induction F with
  | nil => exact List.Sublist.refl _
  | cons t F ih => exact (Tree.ptrs_collapse p t).append ih

/-- Collapsing keeps a forest valid. -/
theorem Valid.collapse (hF : F.Valid) (p : Ptr) : (F.collapse p).Valid := by
  refine ⟨fun t ht => ?_, List.pairwise_map.2 (hF.disjoint.imp fun h => ?_),
    List.pairwise_map.2 (hF.sorted.imp fun h => ?_), hF.nodup.sublist (ptrs_collapse p F)⟩
  · obtain ⟨u, hu, rfl⟩ := List.mem_map.1 ht
    exact (hF.tree u hu).collapse p
  · rwa [Tree.subtreeTerminals_collapse, Tree.subtreeTerminals_collapse]
  · rwa [Tree.least_collapse, Tree.least_collapse]

/-- **The terminals after the collapse.** -/
theorem leaf_mem_collapse (hF : F.Valid) {p : Ptr} {l r : Tree} (hv : Tree.node p l r ∈ F.subtrees) {q : Ptr}
    {x : Label} {m : Finset Label} : Tree.leaf q x m ∈ (F.collapse p).subtrees ↔
      Tree.leaf q x m = (Tree.node p l r).collapsed ∨
        Tree.leaf q x m ∈ F.subtrees ∧ q ∉ (Tree.node p l r).ptrs := by
  obtain ⟨t, ht, hvt⟩ := mem_subtrees.1 hv
  obtain ⟨A, B, rfl⟩ := List.append_of_mem ht
  have hn := hF.nodup
  rw [ptrs, List.flatMap_append, List.flatMap_cons, List.nodup_append, List.nodup_append] at hn
  obtain ⟨-, ⟨hnt, -, hB⟩, hA⟩ := hn
  have out : ∀ u ∈ A ++ B, ∀ a ∈ u.ptrs, a ∉ t.ptrs := by
    intro u hu a ha hat
    rcases List.mem_append.1 hu with hu | hu
    · exact hA a (List.mem_flatMap.2 ⟨u, hu, ha⟩) a (List.mem_append_left _ hat) rfl
    · exact hB a hat a (List.mem_flatMap.2 ⟨u, hu, ha⟩) rfl
  have same : ∀ u ∈ A ++ B, u.collapse p = u := fun u hu =>
    Tree.collapse_of_notMem fun hmem => out u hu p hmem (Tree.ptr_mem_ptrs hvt)
  constructor
  · intro h
    obtain ⟨u', hu', hx⟩ := mem_subtrees.1 h
    obtain ⟨u, hu, rfl⟩ := List.mem_map.1 hu'
    by_cases hut : u = t
    · subst hut
      exact ((Tree.leaf_mem_collapse hnt hvt).1 hx).imp_right fun h => ⟨mem_subtrees.2 ⟨u, hu, h.1⟩, h.2⟩
    · have hmem : u ∈ A ++ B := by
        rcases List.mem_append.1 hu with hu | hu
        · exact List.mem_append_left _ hu
        · exact List.mem_append_right _ ((List.mem_cons.1 hu).resolve_left hut)
      rw [same u hmem] at hx
      exact Or.inr ⟨mem_subtrees.2 ⟨u, hu, hx⟩, fun hq =>
        out u hmem q (Tree.ptr_mem_ptrs hx) (Tree.ptrs_subset_of_mem_subtrees hvt hq)⟩
  · intro h
    have here := (Tree.leaf_mem_collapse hnt hvt (q := q) (x := x) (m := m)).2
    rcases h with h | ⟨h, hq⟩
    · exact mem_subtrees.2 ⟨_, List.mem_map_of_mem ht, here (Or.inl h)⟩
    · obtain ⟨u, hu, hx⟩ := mem_subtrees.1 h
      by_cases hut : u = t
      · exact mem_subtrees.2 ⟨_, List.mem_map_of_mem ht, here (Or.inr ⟨hut ▸ hx, hq⟩)⟩
      · refine mem_subtrees.2 ⟨_, List.mem_map_of_mem hu, ?_⟩
        have hmem : u ∈ A ++ B := by
          rcases List.mem_append.1 hu with hu | hu
          · exact List.mem_append_left _ hu
          · exact List.mem_append_right _ ((List.mem_cons.1 hu).resolve_left hut)
        rwa [same u hmem]

/-- **The two maps are those of the forest**: a terminal has its label in
`TerminalToLabel`, and `LabelToTerminal` leads to it from that label and from all
those merged into it. -/
structure Indexed (s : Store) (F : Forest) : Prop where
  terminalToLabel : ∀ p x, s.terminalToLabel p = some x ↔ ∃ m, Tree.leaf p x m ∈ F.subtrees
  labelToTerminal : ∀ p x, s.labelToTerminal x = some p ↔ ∃ l m, Tree.leaf p l m ∈ F.subtrees ∧ x ∈ insert l m

/-- Only the terminals of the forest matter. -/
theorem Indexed.congr {G : Forest} {s' : Store} (h : F.Indexed s) (hl : s'.labelToTerminal = s.labelToTerminal)
    (ht : s'.terminalToLabel = s.terminalToLabel)
    (hleaf : ∀ p x m, Tree.leaf p x m ∈ G.subtrees ↔ Tree.leaf p x m ∈ F.subtrees) : G.Indexed s' := by
  refine ⟨fun p x => ?_, fun p x => ?_⟩
  · rw [ht, h.terminalToLabel]
    exact exists_congr fun m => (hleaf p x m).symm
  · rw [hl, h.labelToTerminal]
    exact exists_congr fun l => exists_congr fun m => and_congr_left' (hleaf p l m).symm

/-- The maps of a forest stored from scratch. -/
theorem toStore_indexed (hF : F.Valid) : F.Indexed (F.toStore width) := by
  refine ⟨fun p x => ?_, fun p x => ?_⟩
  · simp only [toStore, Option.bind_eq_some_iff, Tree.terminalToLabel_eq_some]
    constructor
    · rintro ⟨t, ht, q, m, rfl⟩
      have hptr : q = p := of_decide_eq_true (List.find?_some (p := fun t : Tree => decide (t.ptr = p)) ht)
      exact ⟨m, hptr ▸ List.mem_of_find?_eq_some ht⟩
    · rintro ⟨m, hm⟩
      exact ⟨_, nodeAt_ptr hF.nodup hm, p, m, rfl⟩
  · simp only [toStore, Option.map_eq_some_iff, labelToTerminal_eq_some_iff hF]
    constructor
    · rintro ⟨t, ⟨ht, hterm, hx⟩, rfl⟩
      cases t with
      | leaf q l m => exact ⟨l, m, ht, hx⟩
      | node => cases hterm
    · rintro ⟨l, m, hm, hx⟩
      exact ⟨_, ⟨hm, rfl, hx⟩, rfl⟩

end Forest

namespace Graph

/-- `CollapseSubtreeAction`, as `doAction` leaves it. -/
structure CollapseSubtreeAction where
  node : Ptr
  leftChild : Option Ptr
  rightChild : Option Ptr
  collapsedLabelToTerminals : List (Label × Ptr) := []
  collapsedTerminals : List (Ptr × Label) := []
  collapsedLabel : Label := 0

namespace CollapseSubtreeAction

/-- The entries of a map written into another one. -/
def writeAll {α β : Type*} [DecidableEq α] (entries : List (α × β)) (f : α → Option β) : α → Option β :=
  entries.foldl (fun f e => Function.update f e.1 (some e.2)) f

/-- The body of the loop of `doAction`; a label that is not in the map gives
`none`. -/
def collapseLabel (label : Label) (a : CollapseSubtreeAction) (s : Store) :
    Option (CollapseSubtreeAction × Store) := do
  let oldNode ← s.labelToTerminal label
  let terminals :=
    if s.terminalToLabel oldNode = some label then (oldNode, label) :: a.collapsedTerminals
    else a.collapsedTerminals
  some ({ a with
      collapsedLabelToTerminals := (label, oldNode) :: a.collapsedLabelToTerminals
      collapsedTerminals := terminals },
    { s with
      labelToTerminal := Function.update s.labelToTerminal label (some a.node)
      terminalToLabel := Function.update s.terminalToLabel oldNode none })

/-- The loop of `doAction` over the labels below the node. -/
def collapseLabels : List Label → CollapseSubtreeAction → Store → Option (CollapseSubtreeAction × Store)
  | [], a, s => some (a, s)
  | label :: labels, a, s => do
      let (a, s) ← collapseLabel label a s
      collapseLabels labels a s

/-- `doAction`. -/
def doAction (node : Ptr) (s : Store) : Option (CollapseSubtreeAction × Store) := do
  let n := s.nodes node
  let labels := Bitset.elements n.subtreeTerminals
  let (a, s) ← collapseLabels labels { node := node, leftChild := n.leftChild, rightChild := n.rightChild }
    { s with nodes := (s.nodes.setLeftChild node none).setRightChild node none }
  let smallestLabel := labels.headD 0
  let terminalToLabel :=
    if (s.terminalToLabel node).isNone then Function.update s.terminalToLabel node (some smallestLabel)
    else s.terminalToLabel
  some ({ a with collapsedLabel := smallestLabel }, { s with terminalToLabel := terminalToLabel })

/-- `undoAction`; the children are dereferenced. -/
def undoAction (a : CollapseSubtreeAction) (s : Store) : Option Store := do
  let node ← s.labelToTerminal a.collapsedLabel
  let l ← a.leftChild
  let r ← a.rightChild
  some { s with
    nodes := (((s.nodes.setLeftChild node (some l)).setRightChild node (some r)).setParent l (some node)).setParent
      r (some node)
    labelToTerminal := writeAll a.collapsedLabelToTerminals s.labelToTerminal
    terminalToLabel := Function.update (writeAll a.collapsedTerminals s.terminalToLabel) node none }

/-- What a list of writes leaves at a place, when all of them agree. -/
theorem writeAll_apply {α β : Type*} [DecidableEq α] {entries : List (α × β)} {f g : α → Option β}
    (h : ∀ e ∈ entries, g e.1 = some e.2) (x : α) :
    writeAll entries f x = if x ∈ entries.map Prod.fst then g x else f x := by
  induction entries generalizing f with
  | nil => rfl
  | cons e entries ih =>
      rw [writeAll, List.foldl_cons, ← writeAll, ih fun e' he' => h e' (List.mem_cons_of_mem _ he')]
      by_cases hx : x ∈ entries.map Prod.fst
      · rw [if_pos hx, if_pos (by simp [hx])]
      · rw [if_neg hx, Function.update_apply]
        by_cases he : x = e.1
        · rw [if_pos he, if_pos (by simp [he]), he, h e (List.mem_cons_self ..)]
        · rw [if_neg he, if_neg (by simp [he, hx])]

/-- **The loop after the labels `P`**, where `s₀` is the memory before the loop. -/
structure Loop (s₀ : Store) (P : List Label) (a : CollapseSubtreeAction) (s : Store) : Prop where
  labelToTerminal : ∀ x, s.labelToTerminal x = if x ∈ P then some a.node else s₀.labelToTerminal x
  terminalToLabel : ∀ q, s.terminalToLabel q =
    if ∃ x ∈ P, s₀.labelToTerminal x = some q then none else s₀.terminalToLabel q
  labels : a.collapsedLabelToTerminals.map Prod.fst = P.reverse
  oldNodes : ∀ e ∈ a.collapsedLabelToTerminals, s₀.labelToTerminal e.1 = some e.2
  oldLabels : ∀ e ∈ a.collapsedTerminals, s₀.terminalToLabel e.1 = some e.2
  complete : ∀ y ∈ P, ∀ q, s₀.labelToTerminal y = some q → s₀.terminalToLabel q = some y →
    q ∈ a.collapsedTerminals.map Prod.fst

/-- **One label more.**  Of the labels of one terminal its own comes first. -/
theorem Loop.step {s₀ s : Store} {P : List Label} {a : CollapseSubtreeAction} (h : Loop s₀ P a s) {x : Label} {q : Ptr}
    (hx : x ∉ P) (hq : s₀.labelToTerminal x = some q)
    (hfirst : s₀.terminalToLabel q = some x → ∀ z ∈ P, s₀.labelToTerminal z ≠ some q) :
    ∃ a' s', collapseLabel x a s = some (a', s') ∧ Loop s₀ (P ++ [x]) a' s' ∧ s'.nodes = s.nodes ∧
      s'.roots = s.roots ∧ a'.node = a.node ∧ a'.leftChild = a.leftChild ∧ a'.rightChild = a.rightChild := by
  have hold : s.labelToTerminal x = some q := by rw [h.labelToTerminal, if_neg hx, hq]
  have hown : s.terminalToLabel q = some x ↔ s₀.terminalToLabel q = some x := by
    rw [h.terminalToLabel]
    constructor
    · intro he
      split_ifs at he with hno
      exact he
    · intro he
      rw [if_neg, he]
      rintro ⟨z, hz, hzq⟩
      exact hfirst he z hz hzq
  have hdo : collapseLabel x a s = some (
      { a with
        collapsedLabelToTerminals := (x, q) :: a.collapsedLabelToTerminals
        collapsedTerminals :=
          if s.terminalToLabel q = some x then (q, x) :: a.collapsedTerminals else a.collapsedTerminals },
      { s with
        labelToTerminal := Function.update s.labelToTerminal x (some a.node)
        terminalToLabel := Function.update s.terminalToLabel q none }) := by
    rw [collapseLabel, hold]
    rfl
  refine ⟨_, _, hdo, ⟨fun y => ?_, fun q' => ?_, ?_, fun e he => ?_, fun e he => ?_,
    fun y hy q' hyq hqy => ?_⟩, rfl, rfl, rfl, rfl, rfl⟩
  · show Function.update s.labelToTerminal x (some a.node) y = _
    rw [Function.update_apply, h.labelToTerminal]
    by_cases hyx : y = x
    · rw [if_pos hyx, if_pos (by simp [hyx])]
    · rw [if_neg hyx]
      simp [hyx]
  · show Function.update s.terminalToLabel q none q' = _
    rw [Function.update_apply, h.terminalToLabel]
    by_cases hqq : q' = q
    · rw [if_pos hqq, if_pos ⟨x, by simp, hqq ▸ hq⟩]
    · have hiff : (∃ z ∈ P ++ [x], s₀.labelToTerminal z = some q') ↔ ∃ z ∈ P, s₀.labelToTerminal z = some q' := by
        simp [hq, Ne.symm hqq]
      rw [if_neg hqq]
      simp only [hiff]
  · show List.map Prod.fst ((x, q) :: a.collapsedLabelToTerminals) = _
    rw [List.map_cons, h.labels, List.reverse_append]
    rfl
  · rcases List.mem_cons.1 he with rfl | he
    · exact hq
    · exact h.oldNodes e he
  · dsimp only at he
    split_ifs at he with hcond
    · rcases List.mem_cons.1 he with rfl | he
      · exact hown.1 hcond
      · exact h.oldLabels e he
    · exact h.oldLabels e he
  · dsimp only
    rcases List.mem_append.1 hy with hy | hy
    · have := h.complete y hy q' hyq hqy
      split_ifs
      · exact List.mem_cons_of_mem _ this
      · exact this
    · obtain rfl := List.mem_singleton.1 hy
      obtain rfl := Option.some.inj (hq.symm.trans hyq)
      rw [if_pos (hown.2 hqy)]
      exact List.mem_cons_self ..

/-- **The loop over all labels.** -/
theorem Loop.run {s₀ : Store} {L P : List Label} {a : CollapseSubtreeAction} {s : Store} (h : Loop s₀ P a s)
    (hL : (P ++ L).Pairwise (· < ·)) (hmem : ∀ x ∈ L, ∃ q, s₀.labelToTerminal x = some q)
    (hfirst : ∀ x q, s₀.terminalToLabel q = some x → ∀ z, s₀.labelToTerminal z = some q → x ≤ z) :
    ∃ a' s', collapseLabels L a s = some (a', s') ∧ Loop s₀ (P ++ L) a' s' ∧ s'.nodes = s.nodes ∧
      s'.roots = s.roots ∧ a'.node = a.node ∧ a'.leftChild = a.leftChild ∧ a'.rightChild = a.rightChild := by
  induction L generalizing P a s with
  | nil => exact ⟨a, s, rfl, by rwa [List.append_nil], rfl, rfl, rfl, rfl, rfl⟩
  | cons x L ih =>
      have hlt := (List.pairwise_append.1 hL).2.2
      obtain ⟨q, hq⟩ := hmem x (List.mem_cons_self ..)
      obtain ⟨a₁, s₁, h₁, hloop, hn₁, hr₁, ha₁, hl₁, hc₁⟩ := h.step
        (fun hx => lt_irrefl x (hlt x hx x (List.mem_cons_self ..))) hq
        fun he z hz hzq => absurd (hlt z hz x (List.mem_cons_self ..)) (not_lt.2 (hfirst x q he z hzq))
      rw [show P ++ x :: L = P ++ [x] ++ L by simp] at hL ⊢
      obtain ⟨a₂, s₂, h₂, hloop₂, hn₂, hr₂, ha₂, hl₂, hc₂⟩ := ih hloop hL fun y hy => hmem y (List.mem_cons_of_mem _ hy)
      refine ⟨a₂, s₂, ?_, hloop₂, hn₂.trans hn₁, hr₂.trans hr₁, ha₂.trans ha₁, hl₂.trans hl₁, hc₂.trans hc₁⟩
      rw [collapseLabels, h₁]
      exact h₂

end CollapseSubtreeAction
end Graph

namespace Forest

variable {width : ℕ} {s : Store} {F : Forest}

/-- The collapse of the subtree at the address `p`, with all that is known of it. -/
structure Collapse (width : ℕ) (s : Store) (F : Forest) (p : Ptr) (act : CollapseSubtreeAction) (s' : Store) :
    Prop where
  done : CollapseSubtreeAction.doAction p s = some (act, s')
  wellFormed : (F.collapse p).WellFormed width s'
  indexed : (F.collapse p).Indexed s'
  undone : CollapseSubtreeAction.undoAction act s' = some s

/-- A label leads to one terminal. -/
theorem leaf_eq_of_label (hF : F.Valid) {p q : Ptr} {x y z : Label} {m m' : Finset Label}
    (hp : Tree.leaf p x m ∈ F.subtrees) (hq : Tree.leaf q y m' ∈ F.subtrees) (hz : z ∈ insert x m)
    (hz' : z ∈ insert y m') : Tree.leaf p x m = Tree.leaf q y m' := by
  rcases hF.nested hp hq hz hz' with h | h
  · exact List.mem_singleton.1 h
  · exact (List.mem_singleton.1 h).symm

/-- Every label below a node belongs to a terminal below it. -/
theorem exists_leaf_below {v : Tree} (hv : v ∈ F.subtrees) {x : Label} (hx : x ∈ v.subtreeTerminals) :
    ∃ q y m, Tree.leaf q y m ∈ F.subtrees ∧ q ∈ v.ptrs ∧ x ∈ insert y m := by
  obtain ⟨t, ht, hvt⟩ := mem_subtrees.1 hv
  obtain ⟨u, hu, hterm, hxu⟩ := Tree.exists_terminal hx
  cases u with
  | leaf q y m => exact ⟨q, y, m, mem_subtrees.2 ⟨t, ht, Tree.subtrees_trans hu hvt⟩, Tree.ptr_mem_ptrs hu, hxu⟩
  | node => cases hterm

/-- The labels of a terminal below a node are below it. -/
theorem subset_of_ptr_mem (hF : F.Valid) {v : Tree} (hv : v ∈ F.subtrees) {q : Ptr} {y : Label} {m : Finset Label}
    (hm : Tree.leaf q y m ∈ F.subtrees) (hq : q ∈ v.ptrs) : insert y m ⊆ v.subtreeTerminals := by
  obtain ⟨t, ht, hvt⟩ := mem_subtrees.1 hv
  rw [← Tree.map_ptr_subtrees] at hq
  obtain ⟨u, hu, he⟩ := List.mem_map.1 hq
  obtain rfl := eq_of_ptr_eq hF.nodup (mem_subtrees.2 ⟨t, ht, Tree.subtrees_trans hu hvt⟩) hm he
  exact Tree.subtreeTerminals_subset_of_mem_subtrees hu

/-- The first label of the loop is the smallest. -/
theorem headD_elements {t : Tree} (ht : t.Valid) (hw : Within width t.subtreeTerminals) :
    (Bitset.elements (encode width t.subtreeTerminals)).headD 0 = t.least := by
  have hmem := (Bitset.mem_elements hw).2 t.least_mem
  have hsort := Bitset.pairwise_elements (encode width t.subtreeTerminals)
  cases he : Bitset.elements (encode width t.subtreeTerminals) with
  | nil =>
      rw [he] at hmem
      cases hmem
  | cons x xs =>
      have hx : x ∈ t.subtreeTerminals := (Bitset.mem_elements hw).1 (by simp [he])
      rw [he] at hmem hsort
      refine le_antisymm ?_ (ht.least_le hx)
      rcases List.mem_cons.1 hmem with h | h
      · exact h.ge
      · exact ((List.pairwise_cons.1 hsort).1 _ h).le

/-- The maps after the loop and the new entry. -/
theorem Indexed.collapse (hF : F.Valid) (hi : F.Indexed s) {p : Ptr} {l r : Tree}
    (hv : Tree.node p l r ∈ F.subtrees) {s' : Store}
    (hlab : ∀ x, s'.labelToTerminal x =
      if x ∈ (Tree.node p l r).subtreeTerminals then some p else s.labelToTerminal x)
    (hp : s'.terminalToLabel p = some (Tree.node p l r).least)
    (hterm : ∀ q, q ≠ p → s'.terminalToLabel q =
      if ∃ x ∈ (Tree.node p l r).subtreeTerminals, s.labelToTerminal x = some q then none
      else s.terminalToLabel q) : (F.collapse p).Indexed s' := by
  set v := Tree.node p l r with hvdef
  have hnew : ∀ x ∈ v.subtreeTerminals, x ∈ insert v.least (v.subtreeTerminals.erase v.least) := fun x hx => by
    rwa [Finset.insert_erase v.least_mem]
  refine ⟨fun q x => ?_, fun q x => ?_⟩
  · simp only [leaf_mem_collapse hF hv]
    by_cases hq : q = p
    · subst hq
      rw [hp]
      constructor
      · intro h
        obtain rfl := Option.some.inj h
        exact ⟨_, Or.inl rfl⟩
      · rintro ⟨m, h | ⟨-, h⟩⟩
        · rw [(Tree.leaf.inj h).2.1]
        · exact absurd (Tree.ptr_mem_ptrs (Tree.mem_subtrees_self v)) h
    · rw [hterm q hq]
      split_ifs with htouch
      · simp only [false_iff]
        obtain ⟨z, hz, hzq⟩ := htouch
        obtain ⟨q', y', m', hm', hq', hzm⟩ := exists_leaf_below hv hz
        obtain rfl := Option.some.inj (hzq.symm.trans ((hi.labelToTerminal q' z).2 ⟨y', m', hm', hzm⟩))
        rintro ⟨m, h | ⟨-, h⟩⟩
        · exact hq (Tree.leaf.inj h).1
        · exact h hq'
      · rw [hi.terminalToLabel]
        refine exists_congr fun m => ⟨fun h => Or.inr ⟨h, fun hqv => htouch ⟨x, ?_, ?_⟩⟩, ?_⟩
        · exact subset_of_ptr_mem hF hv h hqv (Finset.mem_insert_self ..)
        · exact (hi.labelToTerminal q x).2 ⟨x, m, h, Finset.mem_insert_self ..⟩
        · rintro (h | h)
          · exact absurd (Tree.leaf.inj h).1 hq
          · exact h.1
  · simp only [leaf_mem_collapse hF hv]
    rw [hlab]
    split_ifs with hx
    · constructor
      · intro h
        obtain rfl := Option.some.inj h
        exact ⟨_, _, Or.inl rfl, hnew x hx⟩
      · rintro ⟨y, m, h | ⟨h, hno⟩, hxm⟩
        · rw [(Tree.leaf.inj h).1]
          rfl
        · obtain ⟨q', y', m', hm', hq', hxm'⟩ := exists_leaf_below hv hx
          obtain ⟨rfl, -, -⟩ := Tree.leaf.inj (leaf_eq_of_label hF h hm' hxm hxm')
          exact absurd hq' hno
    · rw [hi.labelToTerminal]
      constructor
      · rintro ⟨y, m, h, hxm⟩
        exact ⟨y, m, Or.inr ⟨h, fun hq => hx (subset_of_ptr_mem hF hv h hq hxm)⟩, hxm⟩
      · rintro ⟨y, m, h | h, hxm⟩
        · refine absurd ?_ hx
          obtain ⟨-, rfl, rfl⟩ := Tree.leaf.inj h
          rwa [Finset.insert_erase v.least_mem] at hxm
        · exact ⟨y, m, h.1, hxm⟩

end Forest

namespace Graph.Nodes

/-- A write of what is there already changes nothing. -/
theorem modify_eq_self {h : Nodes} {p : Ptr} {f : Node → Node} (hf : f (h p) = h p) : h.modify p f = h := by
  rw [modify, hf, Function.update_eq_self]

/-- Two writes to one node are one write. -/
theorem modify_modify (h : Nodes) (p : Ptr) (f g : Node → Node) :
    (h.modify p f).modify p g = h.modify p fun n => g (f n) := by
  rw [modify, modify_self, modify, Function.update_idem]
  rfl

/-- A parent that is set already may be set again. -/
theorem setParent_eq_self {h : Nodes} {p q : Ptr} (hp : (h p).parent = some q) : h.setParent p (some q) = h := by
  refine modify_eq_self ?_
  rw [← hp]

/-- Both children are taken off at once. -/
theorem takeChildren (h : Nodes) (p : Ptr) : (h.setLeftChild p none).setRightChild p none =
    h.modify p fun n => { n with leftChild := none, rightChild := none } :=
  modify_modify ..

/-- The children taken from a node and given back. -/
theorem restoreChildren {h : Nodes} {p l r : Ptr} (hl : (h p).leftChild = some l) (hr : (h p).rightChild = some r) :
    (((h.setLeftChild p none).setRightChild p none).setLeftChild p (some l)).setRightChild p (some r) = h := by
  simp only [setLeftChild, setRightChild, modify_modify]
  refine modify_eq_self ?_
  rw [← hl, ← hr]

end Graph.Nodes

namespace Forest

variable {width : ℕ} {s : Store} {F : Forest}

/-- An inner node has no label. -/
theorem Indexed.terminalToLabel_inner (hF : F.Valid) (hi : F.Indexed s) {p : Ptr} {l r : Tree}
    (hv : Tree.node p l r ∈ F.subtrees) : s.terminalToLabel p = none := by
  cases h : s.terminalToLabel p with
  | none => rfl
  | some x =>
      obtain ⟨m, hm⟩ := (hi.terminalToLabel p x).1 h
      cases eq_of_ptr_eq hF.nodup hm hv rfl

/-- The label of a terminal is the first of the labels that lead to it. -/
theorem Indexed.le_of_labelToTerminal (hF : F.Valid) (hi : F.Indexed s) {x z : Label} {q : Ptr}
    (hx : s.terminalToLabel q = some x) (hz : s.labelToTerminal z = some q) : x ≤ z := by
  obtain ⟨m, hm⟩ := (hi.terminalToLabel q x).1 hx
  obtain ⟨y, m', hm', hzm⟩ := (hi.labelToTerminal q z).1 hz
  obtain ⟨-, rfl, rfl⟩ := Tree.leaf.inj (eq_of_ptr_eq hF.nodup hm hm' rfl)
  exact (hF.of_mem_subtrees hm).least_le hzm

/-- The forest in memory when the children of an inner node are taken off. -/
theorem WellFormed.collapse (hF : F.WellFormed width s) {p : Ptr} {l r : Tree} (hv : Tree.node p l r ∈ F.subtrees)
    {s' : Store} (hnodes : s'.nodes = s.nodes.modify p fun n => { n with leftChild := none, rightChild := none })
    (hroots : s'.roots = s.roots) : (F.collapse p).WellFormed width s' := by
  refine ⟨hF.valid.collapse p, fun u hu => ?_, ?_, fun u hu => ?_⟩
  · obtain ⟨w, hw, rfl⟩ := List.mem_map.1 hu
    rw [Tree.subtreeTerminals_collapse]
    exact hF.within w hw
  · rw [hroots, hF.stored.roots, Forest.collapse, List.map_map]
    exact List.map_congr_left fun u _ => (Tree.ptr_collapse p u).symm
  · obtain ⟨w, hw, rfl⟩ := List.mem_map.1 hu
    rw [hnodes]
    refine (hF.stored.trees w hw).collapse (Nodes.modify_self ..) (fun q hq => Nodes.modify_of_ne _ _ hq)
      fun x m hx => ?_
    cases eq_of_ptr_eq hF.valid.nodup (mem_subtrees.2 ⟨w, hw, hx⟩) hv rfl

/-- A terminal below the node has its entry in the action, when its label has. -/
theorem Indexed.terminalToLabel_of_notMem (hF : F.Valid) (hi : F.Indexed s) {v : Tree} (hv : v ∈ F.subtrees)
    {keys : List Ptr} (hkeys : ∀ y ∈ v.subtreeTerminals, ∀ q, s.labelToTerminal y = some q →
      s.terminalToLabel q = some y → q ∈ keys) {q : Ptr}
    (hq : ∃ x ∈ v.subtreeTerminals, s.labelToTerminal x = some q) (hkey : q ∉ keys) : s.terminalToLabel q = none := by
  cases hy : s.terminalToLabel q with
  | none => rfl
  | some y =>
      obtain ⟨x, hx, hxq⟩ := hq
      obtain ⟨q', y', m', hm', hq', hxm⟩ := exists_leaf_below hv hx
      obtain rfl := Option.some.inj (hxq.symm.trans ((hi.labelToTerminal q' x).2 ⟨y', m', hm', hxm⟩))
      obtain ⟨m, hm⟩ := (hi.terminalToLabel q y).1 hy
      have hyv := subset_of_ptr_mem hF hv hm hq' (Finset.mem_insert_self ..)
      exact absurd (hkeys y hyv q ((hi.labelToTerminal q y).2 ⟨y, m, hm, Finset.mem_insert_self ..⟩) hy) hkey

/-- **Every inner node can be collapsed, and expanded again.** -/
theorem exists_collapse (hF : F.WellFormed width s) (hi : F.Indexed s) {p : Ptr} {l r : Tree}
    (hv : Tree.node p l r ∈ F.subtrees) : ∃ act s', Collapse width s F p act s' := by
  set v := Tree.node p l r with hvdef
  obtain ⟨t, ht, hvt⟩ := mem_subtrees.1 hv
  have hwords : Within width v.subtreeTerminals :=
    (hF.within t ht).mono (Tree.subtreeTerminals_subset_of_mem_subtrees hvt)
  obtain ⟨parent, sibling, hst⟩ := (hF.stored.trees t ht).of_mem hvt
  have hroot : s.nodes p = Tree.record width parent sibling v := hst.root
  have hleft : (s.nodes p).leftChild = some l.ptr := congrArg Node.leftChild hroot
  have hright : (s.nodes p).rightChild = some r.ptr := congrArg Node.rightChild hroot
  have hlp : (s.nodes l.ptr).parent = some p := congrArg Node.parent hst.2.1.root
  have hrp : (s.nodes r.ptr).parent = some p := congrArg Node.parent hst.2.2.root
  have hpnone := hi.terminalToLabel_inner hF.valid hv
  set L := Bitset.elements (encode width v.subtreeTerminals) with hL
  have hmemL : ∀ x, x ∈ L ↔ x ∈ v.subtreeTerminals := fun x => Bitset.mem_elements hwords
  have hlabels : Bitset.elements (s.nodes p).subtreeTerminals = L :=
    congrArg (fun n => Bitset.elements n.subtreeTerminals) hroot
  have hmem : ∀ x ∈ L, ∃ q, s.labelToTerminal x = some q := by
    intro x hx
    obtain ⟨q, y, m, hm, -, hxm⟩ := exists_leaf_below hv ((hmemL x).1 hx)
    exact ⟨q, (hi.labelToTerminal q x).2 ⟨y, m, hm, hxm⟩⟩
  -- the loop
  set a₀ : CollapseSubtreeAction :=
    { node := p, leftChild := (s.nodes p).leftChild, rightChild := (s.nodes p).rightChild } with ha₀
  set s₀ : Store := { s with nodes := (s.nodes.setLeftChild p none).setRightChild p none } with hs₀
  have hstart : CollapseSubtreeAction.Loop s₀ [] a₀ s₀ :=
    ⟨fun x => by simp, fun q => by simp, rfl, fun e he => absurd he List.not_mem_nil,
      fun e he => absurd he List.not_mem_nil, fun y hy => absurd hy List.not_mem_nil⟩
  obtain ⟨a, s₁, hrun, hloop, hnodes, hroots, hnode, hl, hr⟩ :=
    hstart.run (L := L) (Bitset.pairwise_elements _) hmem fun x q hx z hz => hi.le_of_labelToTerminal hF.valid hx hz
  rw [List.nil_append] at hloop
  have htouch : ∀ q, (∃ x ∈ L, s₀.labelToTerminal x = some q) ↔
      ∃ x ∈ v.subtreeTerminals, s.labelToTerminal x = some q := fun q =>
    exists_congr fun x => and_congr_left' (hmemL x)
  have hp₁ : s₁.terminalToLabel p = none := by
    rw [hloop.terminalToLabel]
    split_ifs
    · rfl
    · exact hpnone
  have hhead : L.headD 0 = v.least := headD_elements (hF.valid.of_mem_subtrees hv) hwords
  have hdo : CollapseSubtreeAction.doAction p s = some ({ a with collapsedLabel := v.least },
      { s₁ with terminalToLabel := Function.update s₁.terminalToLabel p (some v.least) }) := by
    rw [CollapseSubtreeAction.doAction]
    simp only [hlabels, Option.bind_eq_bind]
    rw [show CollapseSubtreeAction.collapseLabels L _ _ = some (a, s₁) from hrun]
    simp only [Option.bind_some, hhead, hp₁, Option.isNone_none, if_true]
  set s' : Store := { s₁ with terminalToLabel := Function.update s₁.terminalToLabel p (some v.least) } with hs'
  have hlab : ∀ x, s'.labelToTerminal x = if x ∈ v.subtreeTerminals then some p else s.labelToTerminal x := by
    intro x
    rw [show s'.labelToTerminal = s₁.labelToTerminal from rfl, hloop.labelToTerminal, hnode]
    simp only [hmemL]
    rfl
  have hterm : ∀ q, q ≠ p → s'.terminalToLabel q =
      if ∃ x ∈ v.subtreeTerminals, s.labelToTerminal x = some q then none else s.terminalToLabel q := by
    intro q hq
    rw [show s'.terminalToLabel q = s₁.terminalToLabel q from Function.update_of_ne hq .., hloop.terminalToLabel]
    simp only [htouch]
    rfl
  have hp' : s'.terminalToLabel p = some v.least := Function.update_self ..
  refine ⟨_, s', hdo, hF.collapse hv (hnodes.trans (Nodes.takeChildren s.nodes p)) hroots,
    hi.collapse hF.valid hv hlab hp' hterm, ?_⟩
  rw [CollapseSubtreeAction.undoAction]
  dsimp only
  rw [hlab, if_pos v.least_mem, hl.trans hleft, hr.trans hright]
  simp only [Option.bind_eq_bind, Option.bind_some, Option.some.injEq]
  refine Store.ext ?_ hroots (funext fun x => ?_) (funext fun q => ?_)
  · dsimp only
    rw [show s'.nodes = s₀.nodes from hnodes, hs₀, Nodes.restoreChildren hleft hright, Nodes.setParent_eq_self hlp,
      Nodes.setParent_eq_self hrp]
  · dsimp only
    rw [CollapseSubtreeAction.writeAll_apply (g := s.labelToTerminal) hloop.oldNodes, hloop.labels]
    split_ifs with hx
    · rfl
    · rw [hlab, if_neg fun hx' => hx (List.mem_reverse.2 ((hmemL x).2 hx'))]
  · dsimp only
    rw [Function.update_apply, CollapseSubtreeAction.writeAll_apply (g := s.terminalToLabel) hloop.oldLabels]
    split_ifs with hq hkey
    · rw [hq, hpnone]
    · rfl
    · rw [hterm q hq]
      split_ifs with hx
      · exact (hi.terminalToLabel_of_notMem hF.valid hv (fun y hy => hloop.complete y ((hmemL y).2 hy)) hx hkey).symm
      · rfl

end Forest

end Maf
