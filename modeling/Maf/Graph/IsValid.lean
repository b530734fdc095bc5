/-
# The check of a forest

`Forest::isValid` and `Forest::checkTriple` of `src/Graph/Forest.cpp` walk down from every
root and compare each node with its children, the two maps and its words.

`checkTriple` collects the labels of a subtree in as many words as their number needs, so
only forests of one word pass: a label above `64` is written outside of the vector, and two
words are never equal to one.  `isValid` decides the representation invariant
(`RepresentationInvariant`) exactly where this does no harm (`isValid_decides_iff`).

The walk skips what lies right of a broken subtree; `Safe` says that it ends and reads
and writes only what is there.
-/

import Maf.Graph.RoundTrip
import Mathlib.Data.List.GetD

namespace Maf.Graph

open Bitset (Word ctz word encode Within)

/-- `Node::hasSmallestTerminal`; reading beyond the words of `other` is `none`. -/
def readSmallest : List Word → List Word → Option Bool
  | [], _ => some false
  | _ :: _, [] => none
  | x :: xs, y :: ys => if x = y then readSmallest xs ys else some (decide (ctz x < ctz y))

/-- What `checkTriple` returns and leaves in its references. -/
structure Checked where
  tripleValid : Bool
  subtreeLabels : List (Ptr × Label)
  nodes : Finset Ptr
  smallestTerminal : ℕ

/-- The bit of a label is added; writing outside of the vector is `none`. -/
def addTerminal (foundTerminals : List Word) (label : Label) : Option (List Word) :=
  if pred label / 64 < foundTerminals.length then
    some (foundTerminals.modify (pred label / 64) fun w => w + (1 : Word) <<< (pred label % 64))
  else none

/-- `foundTerminals`. -/
def collectTerminals (subtreeLabels : List (Ptr × Label)) : Option (List Word) :=
  (subtreeLabels.map Prod.snd).foldlM addTerminal (List.replicate ((subtreeLabels.length + 63) / 64) 0)

/-- `unordered_map::merge`. -/
def mergeLabels (a b : List (Ptr × Label)) : List (Ptr × Label) :=
  a ++ b.filter fun e => decide (e.1 ∉ a.map Prod.fst)

/-- The end of `checkTriple`: the words of the node are compared. -/
def compareTerminals (h : Nodes) (parent : Ptr) (c : Checked) : Option Checked :=
  (collectTerminals c.subtreeLabels).map fun foundTerminals =>
    { c with tripleValid := c.tripleValid && decide (foundTerminals = (h parent).subtreeTerminals) }

/-- **`Forest::checkTriple`**; `none` is an exception, a read or write outside of a vector, or
fuel that runs out. -/
def checkTriple (s : Store) : ℕ → Ptr → Finset Ptr → ℕ → Option Checked
  | 0, _, _, _ => none
  | fuel + 1, parent, nodes, smallestTerminal =>
      let first := decide (parent ∉ nodes)
      let nodes := insert parent nodes
      match (s.nodes parent).leftChild, (s.nodes parent).rightChild with
      | none, none =>
          match s.terminalToLabel parent with
          | some label => do
              let terminal ← s.labelToTerminal label
              compareTerminals s.nodes parent
                ⟨first && decide (terminal = parent), [(parent, label)], nodes, min label smallestTerminal⟩
          | none => compareTerminals s.nodes parent ⟨false, [], nodes, smallestTerminal⟩
      | some left, some right => do
          let unordered ← readSmallest (s.nodes right).subtreeTerminals (s.nodes left).subtreeTerminals
          let linked := first && !unordered && decide ((s.nodes left).parent = some parent) &&
            decide ((s.nodes left).sibling = some right) && decide ((s.nodes right).parent = some parent) &&
            decide ((s.nodes right).sibling = some left)
          let l ← checkTriple s fuel left nodes smallestTerminal
          if l.tripleValid then do
            let r ← checkTriple s fuel right l.nodes l.smallestTerminal
            compareTerminals s.nodes parent
              ⟨linked && r.tripleValid, mergeLabels l.subtreeLabels r.subtreeLabels, r.nodes, r.smallestTerminal⟩
          else compareTerminals s.nodes parent { l with tripleValid := false }
      | _, _ => compareTerminals s.nodes parent ⟨false, [], nodes, smallestTerminal⟩

/-- The variables of `isValid`. -/
structure Checking where
  valid : Bool
  totalLeafs : List (Ptr × Label)
  lastSmallestTerminal : ℕ

/-- The body of the loop over the roots. -/
def checkRoot (s : Store) (fuel : ℕ) (σ : Checking) (root : Ptr) : Option Checking := do
  let c ← checkTriple s fuel root ∅ (2 ^ 32 - 1)
  some ⟨σ.valid && (s.nodes root).parent.isNone && c.tripleValid &&
      !decide (c.smallestTerminal < σ.lastSmallestTerminal),
    mergeLabels σ.totalLeafs c.subtreeLabels, c.smallestTerminal⟩

/-- `*terminalToLabel == totalLeafs`, where `keys` are the keys of the map. -/
def sameLeafs (keys : List Ptr) (s : Store) (totalLeafs : List (Ptr × Label)) : Bool :=
  (keys.all fun p => (s.terminalToLabel p).all fun x => decide ((p, x) ∈ totalLeafs)) &&
    totalLeafs.all fun e => decide (s.terminalToLabel e.1 = some e.2)

/-- **`Forest::isValid`.** -/
def isValid (keys : List Ptr) (fuel : ℕ) (s : Store) : Option Bool := do
  let σ ← s.roots.foldlM (checkRoot s fuel) ⟨true, [], 0⟩
  some (σ.valid && sameLeafs keys s σ.totalLeafs)

/-- The words have exactly the bits of the set. -/
def IsBitset (ws : List Word) (S : Finset Label) : Prop :=
  (∀ x ∈ S, 0 < x) ∧ ∀ x, 0 < x → (Bitset.mem ws x = true ↔ x ∈ S)

end Maf.Graph

namespace Maf.Tree

open Graph

/-- The nodes of the tree have its links and its labels. -/
def Represented (h : Nodes) : Option Ptr → Option Ptr → Tree → Prop
  | parent, sibling, leaf p x m => (h p).parent = parent ∧ (h p).sibling = sibling ∧ (h p).leftChild = none ∧
      (h p).rightChild = none ∧ IsBitset (h p).subtreeTerminals (leaf p x m).subtreeTerminals
  | parent, sibling, node p l r => ((h p).parent = parent ∧ (h p).sibling = sibling ∧ (h p).leftChild = some l.ptr ∧
      (h p).rightChild = some r.ptr ∧ IsBitset (h p).subtreeTerminals (node p l r).subtreeTerminals) ∧
      Represented h (some p) (some r.ptr) l ∧ Represented h (some p) (some l.ptr) r

/-- The terminals with their labels. -/
def leafLabels : Tree → List (Ptr × Label)
  | leaf p x _ => [(p, x)]
  | node _ l r => l.leafLabels ++ r.leafLabels

/-- The leaves and labels of a tree. -/
theorem mem_leafLabels {t : Tree} {p : Ptr} {x : Label} : (p, x) ∈ t.leafLabels ↔ ∃ m, leaf p x m ∈ t.subtrees := by
  induction t with
  | leaf q y m => simp [leafLabels, subtrees]
  | node q l r ihl ihr => simp [leafLabels, ihl, ihr, mem_subtrees_node, exists_or]

/-- The listed labels are those of the tree. -/
theorem toFinset_leafLabels (t : Tree) : (t.leafLabels.map Prod.snd).toFinset = t.labels := by
  induction t with
  | leaf p x m => rfl
  | node p l r ihl ihr => rw [leafLabels, List.map_append, List.toFinset_append, ihl, ihr, labels]

/-- No label is listed twice. -/
theorem nodup_leafLabels {t : Tree} (ht : t.Distinct) : (t.leafLabels.map Prod.snd).Nodup := by
  induction t with
  | leaf p x m => exact List.nodup_singleton x
  | node p l r ihl ihr =>
      rw [leafLabels, List.map_append]
      refine List.nodup_append.2 ⟨ihl ht.1, ihr ht.2.1, ?_⟩
      rintro x hx y hy rfl
      rw [← List.mem_toFinset, toFinset_leafLabels] at hx hy
      exact Finset.disjoint_left.1 ht.2.2 hx hy

/-- Every tree has a leaf. -/
theorem leafLabels_ne_nil (t : Tree) : t.leafLabels ≠ [] := by
  induction t with
  | leaf => exact List.cons_ne_nil _ _
  | node p l r ihl ihr => exact List.append_ne_nil_of_left_ne_nil ihl _

/-- A leaf is a node of the tree. -/
theorem fst_mem_ptrs {t : Tree} {e : Ptr × Label} (h : e ∈ t.leafLabels) : e.1 ∈ t.ptrs := by
  obtain ⟨m, hm⟩ := mem_leafLabels.1 (show (e.1, e.2) ∈ t.leafLabels from h)
  exact ptr_mem_ptrs hm

end Maf.Tree

namespace Maf.Graph

open Bitset (Word ctz word encode Within)

/-- **The representation invariant**: the forest is stored with its links and labels, the
maps list its leaves, and `Roots` is sorted. -/
structure Represents (s : Store) (F : Forest) : Prop where
  valid : F.Valid
  uncollapsed : ∀ p x m, Tree.leaf p x m ∈ F.subtrees → m = ∅
  roots : s.roots = F.map Tree.ptr
  nodes : ∀ t ∈ F, t.Represented s.nodes none (s.nodes t.ptr).sibling
  mapped : F.Mapped s

def RepresentationInvariant (s : Store) : Prop := ∃ F, Represents s F

/-- The nodes below the roots. -/
inductive Reachable (s : Store) : Ptr → Prop
  | root {p : Ptr} (hp : p ∈ s.roots) : Reachable s p
  | left {p q : Ptr} (hp : Reachable s p) (hq : (s.nodes p).leftChild = some q) : Reachable s q
  | right {p q : Ptr} (hp : Reachable s p) (hq : (s.nodes p).rightChild = some q) : Reachable s q

/-- Every node has one word. -/
def OneWord (s : Store) : Prop := ∀ p, Reachable s p → (s.nodes p).subtreeTerminals.length = 1

/-- **A subtree without a fault**: it is stored with one word, its nodes were not seen
before, and the maps have its leaves. -/
structure Intact (s : Store) (seen : Finset Ptr) (t : Tree) : Prop where
  stored : t.Stored 1 s.nodes (s.nodes t.ptr).parent (s.nodes t.ptr).sibling
  valid : t.Valid
  nodup : t.ptrs.Nodup
  fresh : ∀ q ∈ t.ptrs, q ∉ seen
  terminals : ∀ p x m, Tree.leaf p x m ∈ t.subtrees →
    m = ∅ ∧ x ≤ 64 ∧ s.terminalToLabel p = some x ∧ s.labelToTerminal x = some p

/-- **The walk below a node is safe** when it ends, compares no words to fewer ones and meets
labels from `1` to `64` with an entry in `labelToTerminal` only.  What lies right of a broken
subtree is not walked. -/
inductive Safe (s : Store) : Finset Ptr → Ptr → Prop
  | terminal {seen : Finset Ptr} {p : Ptr} (hl : (s.nodes p).leftChild = none) (hr : (s.nodes p).rightChild = none)
      (hlabel : ∀ x, s.terminalToLabel p = some x → 0 < x ∧ x ≤ 64 ∧ (s.labelToTerminal x).isSome) : Safe s seen p
  | single {seen : Finset Ptr} {p : Ptr} (h : (s.nodes p).leftChild.isSome ≠ (s.nodes p).rightChild.isSome) :
      Safe s seen p
  | inner {seen : Finset Ptr} {p l r : Ptr} (hl : (s.nodes p).leftChild = some l) (hr : (s.nodes p).rightChild = some r)
      (hread : (readSmallest (s.nodes r).subtreeTerminals (s.nodes l).subtreeTerminals).isSome)
      (left : Safe s (insert p seen) l)
      (right : ∀ t : Tree, t.ptr = l → Intact s (insert p seen) t → Safe s (insert p seen ∪ t.ptrs.toFinset) r) :
        Safe s seen p

/-- The walk from the roots is safe. -/
def SafeWalk (s : Store) : Prop := ∀ r ∈ s.roots, Safe s ∅ r

/-- What `isValid` looks at is in order: each tree by itself, the order of the trees and
`terminalToLabel`. -/
structure Passes (s : Store) (F : Forest) : Prop where
  roots : s.roots = F.map Tree.ptr
  parent : ∀ t ∈ F, (s.nodes t.ptr).parent = none
  intact : ∀ t ∈ F, Intact s ∅ t
  sorted : F.Pairwise fun t u => t.least ≤ u.least
  terminals : ∀ p x, s.terminalToLabel p = some x ↔ Tree.leaf p x ∅ ∈ F.subtrees

section Words

/-- Words of equal length can be compared. -/
theorem readSmallest_eq {a b : List Word} (h : a.length = b.length) :
    readSmallest a b = some (Bitset.hasSmallest a b) := by
  induction a generalizing b with
  | nil => rfl
  | cons x a ih =>
      cases b with
      | nil => cases h
      | cons y b =>
          simp only [readSmallest, Bitset.hasSmallest]
          split_ifs
          · exact ih (Nat.succ.inj h)
          · rfl

/-- Adding the bit of a new label. -/
theorem word_add {S : Finset ℕ} {x : ℕ} (hx : 0 < x) (h64 : x ≤ 64) (hS : x ∉ S) :
    word S 0 + (1 : Word) <<< (x - 1) = word (insert x S) 0 := by
  have hbit : ∀ j < 64, ((1 : Word) <<< (x - 1)).getLsbD j = decide (j + 1 = x) := fun j hj => by
    have := Bitset.getLsbD_bit (x := x) (i := 0) hx hj (by omega)
    rw [show (x - 1) % 64 = x - 1 by omega] at this
    rw [this]
    congr 1
    rw [Nat.mul_zero, Nat.zero_add]
  rw [BitVec.add_eq_or_of_and_eq_zero]
  · refine Bitset.word_ext fun j hj => ?_
    rw [BitVec.getLsbD_or, Bitset.getLsbD_word S 0 hj, hbit j hj, Nat.mul_zero, Nat.zero_add]
    rw [← Bool.decide_or]
    exact decide_eq_decide.2 (by rw [Finset.mem_insert, or_comm])
  · refine BitVec.eq_of_getLsbD_eq fun j hj => ?_
    rw [BitVec.getLsbD_and, Bitset.getLsbD_word S 0 hj, hbit j hj, BitVec.getLsbD_zero, ← Bool.decide_and]
    refine decide_eq_false ?_
    rintro ⟨hmem, rfl⟩
    exact hS (by simpa using hmem)

/-- The labels up to `64` have their bit in the first word. -/
theorem pred_eq_of_le {x : ℕ} (hx : 0 < x) (h64 : x ≤ 64) : pred x / 64 = 0 ∧ pred x % 64 = x - 1 := by
  have hpred : pred x = x - 1 := pred_eq hx (by omega)
  rw [hpred]
  omega

/-- A label up to `64` is collected in the first word. -/
theorem addTerminal_eq {w : Word} {ws : List Word} {x : ℕ} (hx : 0 < x) (h64 : x ≤ 64) :
    addTerminal (w :: ws) x = some ((w + (1 : Word) <<< (x - 1)) :: ws) := by
  obtain ⟨hdiv, hmod⟩ := pred_eq_of_le hx h64
  rw [addTerminal, hdiv, hmod, if_pos (by simp)]
  rfl

/-- The labels up to `64` can be added. -/
theorem exists_addTerminals {labels : List Label} (h : ∀ x ∈ labels, 0 < x ∧ x ≤ 64) (w : Word) (ws : List Word) :
    ∃ r, labels.foldlM addTerminal (w :: ws) = some r := by
  induction labels generalizing w with
  | nil => exact ⟨_, rfl⟩
  | cons x labels ih =>
      rw [List.forall_mem_cons] at h
      rw [List.foldlM_cons, addTerminal_eq h.1.1 h.1.2]
      exact ih h.2 _

/-- The terminals with labels up to `64` can be collected. -/
theorem exists_collectTerminals {L : List (Ptr × Label)} (h : ∀ e ∈ L, 0 < e.2 ∧ e.2 ≤ 64) :
    ∃ ws, collectTerminals L = some ws := by
  cases L with
  | nil => exact ⟨[], rfl⟩
  | cons e L =>
      obtain ⟨k, hk⟩ : ∃ k, ((e :: L).length + 63) / 64 = k + 1 := ⟨L.length / 64, by
        rw [List.length_cons]
        omega⟩
      rw [collectTerminals, hk, List.replicate_succ]
      refine exists_addTerminals (fun x hx => ?_) _ _
      obtain ⟨e', he', rfl⟩ := List.mem_map.1 hx
      exact h e' he'

/-- The first word collects the labels. -/
theorem foldlM_addTerminal {labels : List Label} (h : ∀ x ∈ labels, 0 < x ∧ x ≤ 64) (hnodup : labels.Nodup)
    {S : Finset Label}
    (hS : ∀ x ∈ labels, x ∉ S) : labels.foldlM addTerminal [word S 0] = some [word (S ∪ labels.toFinset) 0] := by
  induction labels generalizing S with
  | nil => simp
  | cons x labels ih =>
      rw [List.forall_mem_cons] at h hS
      rw [List.nodup_cons] at hnodup
      rw [List.foldlM_cons, addTerminal_eq h.1.1 h.1.2, word_add h.1.1 h.1.2 hS.1]
      refine (ih h.2 hnodup.2 fun y hy => ?_).trans ?_
      · rw [Finset.mem_insert, not_or]
        exact ⟨fun hyx => hnodup.1 (hyx ▸ hy), hS.2 y hy⟩
      · rw [List.toFinset_cons, Finset.insert_union, Finset.union_insert]

/-- **Different labels up to `64` make their word.** -/
theorem collectTerminals_eq {L : List (Ptr × Label)} (h : ∀ e ∈ L, 0 < e.2 ∧ e.2 ≤ 64) (hne : L ≠ [])
    (hnodup : (L.map Prod.snd).Nodup) : collectTerminals L = some (encode 1 (L.map Prod.snd).toFinset) := by
  have hlabels : ∀ x ∈ L.map Prod.snd, 0 < x ∧ x ≤ 64 := fun x hx => by
    obtain ⟨e, he, rfl⟩ := List.mem_map.1 hx
    exact h e he
  have hlen : L.length ≤ 64 := by
    have hsub : (L.map Prod.snd).toFinset ⊆ Finset.Icc 1 64 := fun x hx => by
      have := hlabels x (List.mem_toFinset.1 hx)
      exact Finset.mem_Icc.2 ⟨this.1, this.2⟩
    have := Finset.card_le_card hsub
    rwa [List.toFinset_card_of_nodup hnodup, List.length_map, Nat.card_Icc] at this
  have hpos := List.length_pos_iff.2 hne
  have hempty : word ∅ 0 = 0 := Bitset.word_eq_zero fun j _ => Finset.notMem_empty _
  have hfold := foldlM_addTerminal hlabels hnodup fun x _ => Finset.notMem_empty x
  rw [collectTerminals, show (L.length + 63) / 64 = 1 by omega]
  rw [hempty, Finset.empty_union] at hfold
  exact hfold

/-- A label that is collected alone is at most `64`. -/
theorem le_of_collectTerminals {p : Ptr} {x : ℕ} (h32 : x < 2 ^ 32) {ws : List Word}
    (h : collectTerminals [(p, x)] = some ws) : 0 < x ∧ x ≤ 64 := by
  have h' : addTerminal [0] x = some ws := by
    simpa [collectTerminals] using h
  have hlt : pred x / 64 < 1 := by
    by_contra hno
    rw [addTerminal, if_neg (by simpa using hno)] at h'
    cases h'
  rcases Nat.eq_zero_or_pos x with rfl | hx
  · exact absurd hlt (by decide)
  · rw [pred_eq hx h32] at hlt
    omega

end Words

section Subtrees

variable {s : Store} {seen : Finset Ptr} {p : Ptr} {t l r : Tree}

/-- The labels below an intact node are those of its terminals. -/
theorem Intact.subtreeTerminals_eq (h : Intact s seen t) : t.subtreeTerminals = t.labels :=
  Tree.subtreeTerminals_eq_labels fun p x m hm => (h.terminals p x m hm).1

/-- The labels of an intact tree are between `1` and `64`. -/
theorem Intact.label_le (h : Intact s seen t) : ∀ e ∈ t.leafLabels, 0 < e.2 ∧ e.2 ≤ 64 := fun e he => by
  obtain ⟨m, hm⟩ := Tree.mem_leafLabels.1 (show (e.1, e.2) ∈ t.leafLabels from he)
  exact ⟨(h.valid.of_mem_subtrees hm).1, (h.terminals _ _ _ hm).2.1⟩

/-- The words of an intact node are those that are collected. -/
theorem Intact.collectTerminals (h : Intact s seen t) :
    Graph.collectTerminals t.leafLabels = some (s.nodes t.ptr).subtreeTerminals := by
  rw [collectTerminals_eq h.label_le t.leafLabels_ne_nil (Tree.nodup_leafLabels h.valid.distinct), h.stored.words,
    Tree.toFinset_leafLabels, h.subtreeTerminals_eq]

/-- The terminals of an intact tree fit one word. -/
theorem Intact.within (h : Intact s seen t) : Within 1 t.subtreeTerminals := fun x hx => by
  rw [h.subtreeTerminals_eq, ← Tree.toFinset_leafLabels, List.mem_toFinset] at hx
  obtain ⟨e, he, rfl⟩ := List.mem_map.1 hx
  exact h.label_le e he

/-- **A node over two intact subtrees** is intact when its own links and words are in order. -/
theorem Intact.node (hl : Intact s (insert p seen) l) (hr : Intact s (insert p seen ∪ l.ptrs.toFinset) r)
    (hp : p ∉ seen) (hleft : (s.nodes p).leftChild = some l.ptr) (hright : (s.nodes p).rightChild = some r.ptr)
    (hlp : (s.nodes l.ptr).parent = some p) (hls : (s.nodes l.ptr).sibling = some r.ptr)
    (hrp : (s.nodes r.ptr).parent = some p) (hrs : (s.nodes r.ptr).sibling = some l.ptr)
    (horder : s.nodes.hasSmallestTerminal r.ptr l.ptr = false)
    (hwords : Graph.collectTerminals (Tree.node p l r).leafLabels = some (s.nodes p).subtreeTerminals) :
    Intact s seen (.node p l r) := by
  have hcross : ∀ q ∈ l.ptrs, q ∉ r.ptrs := fun q hql hqr =>
    hr.fresh q hqr (Finset.mem_union_right _ (List.mem_toFinset.2 hql))
  have hdisjoint : Disjoint l.subtreeTerminals r.subtreeTerminals := by
    rw [hl.subtreeTerminals_eq, hr.subtreeTerminals_eq]
    refine Finset.disjoint_left.2 fun x hxl hxr => ?_
    obtain ⟨a, m, ha⟩ := Tree.exists_leaf hxl
    obtain ⟨b, m', hb⟩ := Tree.exists_leaf hxr
    have hab := (hl.terminals a x m ha).2.2.2.symm.trans (hr.terminals b x m' hb).2.2.2
    obtain rfl := Option.some.inj hab
    exact hcross a (Tree.ptr_mem_ptrs ha) (Tree.ptr_mem_ptrs hb)
  have hlt : l.least < r.least := by
    have hnot := (Tree.hasSmallestTerminal_iff hr.stored.words hl.stored.words hr.valid hl.valid hdisjoint.symm
      hr.within
      hl.within).not.1 (by rw [horder]; exact Bool.false_ne_true)
    refine lt_of_le_of_ne (not_lt.1 hnot) fun heq => ?_
    have hmem := Tree.labels_subset_subtreeTerminals r r.least_mem_labels
    rw [← heq] at hmem
    exact Finset.disjoint_left.1 hdisjoint (Tree.labels_subset_subtreeTerminals l l.least_mem_labels) hmem
  have hvalid : (Tree.node p l r).Valid := ⟨hl.valid, hr.valid, hdisjoint, hlt⟩
  have hterminals : ∀ q x m, Tree.leaf q x m ∈ (Tree.node p l r).subtrees →
      m = ∅ ∧ x ≤ 64 ∧ s.terminalToLabel q = some x ∧ s.labelToTerminal x = some q := fun q x m hm => by
    rcases Tree.mem_subtrees_node.1 hm with hm | hm | hm
    · cases hm
    · exact hl.terminals q x m hm
    · exact hr.terminals q x m hm
  have hlabels : ∀ e ∈ (Tree.node p l r).leafLabels, 0 < e.2 ∧ e.2 ≤ 64 := fun e he => by
    rcases List.mem_append.1 he with he | he
    · exact hl.label_le e he
    · exact hr.label_le e he
  rw [collectTerminals_eq hlabels (Tree.leafLabels_ne_nil _) (Tree.nodup_leafLabels hvalid.distinct),
    Tree.toFinset_leafLabels, Tree.labels, ← hl.subtreeTerminals_eq, ← hr.subtreeTerminals_eq] at hwords
  have hstoredL := hl.stored
  have hstoredR := hr.stored
  rw [hlp, hls] at hstoredL
  rw [hrp, hrs] at hstoredR
  refine ⟨⟨?_, hstoredL, hstoredR⟩, hvalid, ?_, fun q hq => ?_, hterminals⟩
  · rw [Tree.ptr_node, Tree.record, Tree.leftPtr, Tree.rightPtr, ← hleft, ← hright, Tree.subtreeTerminals,
      Option.some.inj hwords]
  · refine List.nodup_cons.2 ⟨fun hmem => ?_, List.nodup_append.2 ⟨hl.nodup, hr.nodup, ?_⟩⟩
    · rcases List.mem_append.1 hmem with hmem | hmem
      · exact hl.fresh p hmem (Finset.mem_insert_self ..)
      · exact hr.fresh p hmem (Finset.mem_union_left _ (Finset.mem_insert_self ..))
    · rintro q hq q' hq' rfl
      exact hcross q hq hq'
  · rcases List.mem_cons.1 hq with rfl | hq
    · exact hp
    · rcases List.mem_append.1 hq with hq | hq
      · exact fun hseen => hl.fresh q hq (Finset.mem_insert_of_mem hseen)
      · exact fun hseen => hr.fresh q hq (Finset.mem_union_left _ (Finset.mem_insert_of_mem hseen))

/-- **The children of an intact node are intact**, and its links and words are in order. -/
theorem Intact.children (h : Intact s seen (.node p l r)) :
    p ∉ seen ∧ Intact s (insert p seen) l ∧ Intact s (insert p seen ∪ l.ptrs.toFinset) r ∧
      (s.nodes p).leftChild = some l.ptr ∧ (s.nodes p).rightChild = some r.ptr ∧
      (s.nodes l.ptr).parent = some p ∧ (s.nodes l.ptr).sibling = some r.ptr ∧
      (s.nodes r.ptr).parent = some p ∧ (s.nodes r.ptr).sibling = some l.ptr ∧
      s.nodes.hasSmallestTerminal r.ptr l.ptr = false := by
  obtain ⟨hroot, hstoredL, hstoredR⟩ := h.stored
  obtain ⟨hl, hr, hdisjoint, hlt⟩ := h.valid
  obtain ⟨hnotin, hnodup⟩ := List.nodup_cons.1 h.nodup
  obtain ⟨hnodupL, hnodupR, hcross⟩ := List.nodup_append.1 hnodup
  rw [List.mem_append, not_or] at hnotin
  have hlrec := hstoredL.root
  have hrrec := hstoredR.root
  have hwithin := h.within
  have hintactL : Intact s (insert p seen) l := by
    refine ⟨by rw [hlrec]; exact hstoredL, hl, hnodupL, fun q hq => ?_, fun q x m hm =>
      h.terminals q x m (Tree.mem_subtrees_node.2 (Or.inr (Or.inl hm)))⟩
    rw [Finset.mem_insert, not_or]
    exact ⟨fun hqp => hnotin.1 (hqp ▸ hq), h.fresh q (List.mem_cons_of_mem _ (List.mem_append_left _ hq))⟩
  have hintactR : Intact s (insert p seen ∪ l.ptrs.toFinset) r := by
    refine ⟨by rw [hrrec]; exact hstoredR, hr, hnodupR, fun q hq => ?_, fun q x m hm =>
      h.terminals q x m (Tree.mem_subtrees_node.2 (Or.inr (Or.inr hm)))⟩
    rw [Finset.mem_union, not_or, Finset.mem_insert, not_or, List.mem_toFinset]
    exact ⟨⟨fun hqp => hnotin.2 (hqp ▸ hq), h.fresh q (List.mem_cons_of_mem _ (List.mem_append_right _ hq))⟩,
      fun hql => hcross q hql q hq rfl⟩
  have hroot' : s.nodes p = _ := hroot
  refine ⟨h.fresh p (List.mem_cons_self ..), hintactL, hintactR, by rw [hroot']; rfl, by rw [hroot']; rfl,
    by rw [hlrec]; rfl, by rw [hlrec]; rfl, by rw [hrrec]; rfl, by rw [hrrec]; rfl, ?_⟩
  rw [Bool.eq_false_iff, Ne, Tree.hasSmallestTerminal_iff hstoredR.words hstoredL.words hr hl hdisjoint.symm
    hintactR.within hintactL.within]
  exact not_lt.2 hlt.le

end Subtrees

section Walk

variable {s : Store} {seen : Finset Ptr} {p : Ptr} {m : ℕ} {c : Checked}

/-- **What `checkTriple` finds out**: it returns true exactly for intact subtrees, and then
leaves their labels, their nodes and their smallest label. -/
structure Describes (s : Store) (seen : Finset Ptr) (p : Ptr) (m : ℕ) (c : Checked) : Prop where
  sound : c.tripleValid = true → ∃ t : Tree, t.ptr = p ∧ Intact s seen t
  complete : ∀ t : Tree, t.ptr = p → Intact s seen t → c.tripleValid = true ∧ c.subtreeLabels = t.leafLabels ∧
    c.nodes = seen ∪ t.ptrs.toFinset ∧ c.smallestTerminal = min t.least m
  labels : ∀ e ∈ c.subtreeLabels, 0 < e.2 ∧ e.2 ≤ 64

/-- The words of the node are compared with those of its labels. -/
theorem compareTerminals_eq_some {c' : Checked} : compareTerminals s.nodes p c = some c' ↔
    ∃ ws, collectTerminals c.subtreeLabels = some ws ∧
      c' = { c with tripleValid := c.tripleValid && decide (ws = (s.nodes p).subtreeTerminals) } := by
  rw [compareTerminals, Option.map_eq_some_iff]
  exact exists_congr fun ws => and_congr_right fun _ => eq_comm

/-- The words of a node can be compared. -/
theorem exists_compareTerminals (h : ∀ e ∈ c.subtreeLabels, 0 < e.2 ∧ e.2 ≤ 64) :
    ∃ c', compareTerminals s.nodes p c = some c' := by
  obtain ⟨ws, hws⟩ := exists_collectTerminals h
  exact ⟨_, compareTerminals_eq_some.2 ⟨ws, hws, rfl⟩⟩

/-- A broken node: it is not the root of an intact subtree. -/
theorem Describes.broken {c' : Checked} (hc : compareTerminals s.nodes p c = some c') (hfalse : c.tripleValid = false)
    (hno : ∀ t : Tree, t.ptr = p → ¬Intact s seen t) (hlabels : ∀ e ∈ c.subtreeLabels, 0 < e.2 ∧ e.2 ≤ 64) :
    Describes s seen p m c' := by
  obtain ⟨ws, -, rfl⟩ := compareTerminals_eq_some.1 hc
  exact ⟨fun h => by simp [hfalse] at h, fun t ht hintact => absurd hintact (hno t ht), hlabels⟩

/-- **A terminal.** -/
theorem Describes.terminal {x : Label} {q : Ptr} (h32 : x < 2 ^ 32) (hl : (s.nodes p).leftChild = none)
    (hr : (s.nodes p).rightChild = none) (hx : s.terminalToLabel p = some x) (hq : s.labelToTerminal x = some q)
    (hc : compareTerminals s.nodes p ⟨decide (p ∉ seen) && decide (q = p), [(p, x)], insert p seen, min x m⟩ = some c) :
    (0 < x ∧ x ≤ 64) ∧ Describes s seen p m c := by
  obtain ⟨ws, hws, rfl⟩ := compareTerminals_eq_some.1 hc
  have hx64 := le_of_collectTerminals h32 hws
  have hlabels : ∀ e ∈ [(p, x)], 0 < e.2 ∧ e.2 ≤ 64 := fun e he => by
    rw [List.mem_singleton.1 he]
    exact hx64
  have hcollect := collectTerminals_eq hlabels (List.cons_ne_nil _ _) (List.nodup_singleton x)
  obtain rfl := Option.some.inj (hws.symm.trans hcollect)
  refine ⟨hx64, fun hvalid => ?_, fun t ht hintact => ?_, hlabels⟩
  · simp only [Bool.and_eq_true, decide_eq_true_eq] at hvalid
    obtain ⟨⟨hseen, rfl⟩, hwords⟩ := hvalid
    refine ⟨.leaf q x ∅, rfl, ⟨?_, ⟨hx64.1, fun y hy => absurd hy (Finset.notMem_empty y)⟩, List.nodup_singleton q,
      fun a ha => List.mem_singleton.1 ha ▸ hseen, fun a y m' ha => ?_⟩⟩
    · have hnode : s.nodes q = ⟨(s.nodes q).parent, (s.nodes q).sibling, (s.nodes q).leftChild, (s.nodes q).rightChild,
          (s.nodes q).subtreeTerminals⟩ := rfl
      rw [hl, hr, ← hwords] at hnode
      exact hnode
    · obtain ⟨rfl, rfl, rfl⟩ : a = q ∧ y = x ∧ m' = ∅ := by simpa [Tree.subtrees] using ha
      exact ⟨rfl, hx64.2, hx, hq⟩
  · cases t with
    | node q' l r =>
        obtain rfl : q' = p := ht
        have := hintact.children.2.2.2.1
        rw [hl] at this
        cases this
    | leaf q' y m' =>
        obtain rfl : q' = p := ht
        obtain ⟨rfl, -, hy, hback⟩ := hintact.terminals q' y m' (Tree.mem_subtrees_self _)
        obtain rfl := Option.some.inj (hx.symm.trans hy)
        obtain rfl := Option.some.inj (hq.symm.trans hback)
        have hwords := hintact.collectTerminals.symm.trans hcollect
        refine ⟨?_, rfl, ?_, rfl⟩
        · simp only [Bool.and_eq_true, decide_eq_true_eq]
          exact ⟨⟨hintact.fresh q (List.mem_singleton_self q), trivial⟩, (Option.some.inj hwords).symm⟩
        · rw [Tree.ptrs, List.toFinset_cons, List.toFinset_nil, Finset.union_comm]
          rfl

/-- Lists without common nodes are joined. -/
theorem mergeLabels_eq {a b : List (Ptr × Label)} (h : ∀ e ∈ b, e.1 ∉ a.map Prod.fst) : mergeLabels a b = a ++ b := by
  rw [mergeLabels, List.filter_eq_self.2 fun e he => decide_eq_true (h e he)]

/-- What is in a merged list is in one of its parts. -/
theorem mem_mergeLabels {a b : List (Ptr × Label)} {e : Ptr × Label} (h : e ∈ mergeLabels a b) : e ∈ a ∨ e ∈ b := by
  rcases List.mem_append.1 h with h | h
  · exact Or.inl h
  · exact Or.inr (List.mem_of_mem_filter h)

/-- The leaves of the children are merged. -/
theorem Intact.mergeLabels {l r : Tree} (hr : Intact s (insert p seen ∪ l.ptrs.toFinset) r) :
    Graph.mergeLabels l.leafLabels r.leafLabels = (Tree.node p l r).leafLabels := by
  refine mergeLabels_eq fun e he hmem => ?_
  obtain ⟨e', he', heq⟩ := List.mem_map.1 hmem
  refine hr.fresh e.1 (Tree.fst_mem_ptrs he) (Finset.mem_union_right _ (List.mem_toFinset.2 ?_))
  exact heq ▸ Tree.fst_mem_ptrs he'

/-- **An inner node**, from what is known of its children. -/
theorem Describes.inner {left right : Ptr} {unordered : Bool} {cl cr : Checked}
    (hl : (s.nodes p).leftChild = some left) (hr : (s.nodes p).rightChild = some right)
    (hread : readSmallest (s.nodes right).subtreeTerminals (s.nodes left).subtreeTerminals = some unordered)
    (hcl : Describes s (insert p seen) left m cl) (hvalid : cl.tripleValid = true)
    (hcr : Describes s cl.nodes right cl.smallestTerminal cr)
    (hc : compareTerminals s.nodes p ⟨(decide (p ∉ seen) && !unordered && decide ((s.nodes left).parent = some p) &&
        decide ((s.nodes left).sibling = some right) && decide ((s.nodes right).parent = some p) &&
        decide ((s.nodes right).sibling = some left)) && cr.tripleValid,
      Graph.mergeLabels cl.subtreeLabels cr.subtreeLabels, cr.nodes, cr.smallestTerminal⟩ = some c) :
    Describes s seen p m c := by
  obtain ⟨tl, rfl, htl⟩ := hcl.sound hvalid
  obtain ⟨-, hlabelsL, hnodesL, hleastL⟩ := hcl.complete tl rfl htl
  obtain ⟨ws, hws, rfl⟩ := compareTerminals_eq_some.1 hc
  rw [hnodesL] at hcr
  have hlabels : ∀ e ∈ Graph.mergeLabels cl.subtreeLabels cr.subtreeLabels, 0 < e.2 ∧ e.2 ≤ 64 := fun e he =>
    (mem_mergeLabels he).elim (hcl.labels e) (hcr.labels e)
  have hordered : ∀ tr : Tree, tr.ptr = right → Intact s (insert p seen ∪ tl.ptrs.toFinset) tr →
      unordered = s.nodes.hasSmallestTerminal tr.ptr tl.ptr := fun tr htr h => by
    subst htr
    rw [readSmallest_eq (by rw [h.stored.words, htl.stored.words, Bitset.length_encode, Bitset.length_encode])] at hread
    exact (Option.some.inj hread).symm
  refine ⟨fun h => ?_, fun t ht hintact => ?_, hlabels⟩
  · simp only [Bool.and_eq_true, decide_eq_true_eq, Bool.not_eq_true'] at h
    obtain ⟨⟨⟨⟨⟨⟨⟨hp, hun⟩, hlp⟩, hls⟩, hrp⟩, hrs⟩, hvalidR⟩, hwords⟩ := h
    obtain ⟨tr, rfl, htr⟩ := hcr.sound hvalidR
    obtain ⟨-, hlabelsR, -⟩ := hcr.complete tr rfl htr
    refine ⟨.node p tl tr, rfl, htl.node htr hp hl hr hlp hls hrp hrs ((hordered tr rfl htr).symm.trans hun) ?_⟩
    rw [← hwords, ← htr.mergeLabels, ← hlabelsL, ← hlabelsR]
    exact hws
  · cases t with
    | leaf q x m' =>
        obtain rfl : q = p := ht
        have hrec : s.nodes q = _ := hintact.stored.root
        rw [hrec] at hl
        cases hl
    | node q l r =>
        obtain rfl : q = p := ht
        obtain ⟨hp, hintactL, hintactR, hl', hr', hlp, hls, hrp, hrs, horder⟩ := hintact.children
        obtain heqL := Option.some.inj (hl.symm.trans hl')
        obtain rfl := Option.some.inj (hr.symm.trans hr')
        obtain ⟨-, hlabelsL', hnodesL', hleastL'⟩ := hcl.complete l heqL.symm hintactL
        have hnodes : insert q seen ∪ tl.ptrs.toFinset = insert q seen ∪ l.ptrs.toFinset := hnodesL.symm.trans hnodesL'
        rw [hnodes] at hcr hordered
        obtain ⟨hvalidR, hlabelsR, hnodesR, hleastR⟩ := hcr.complete r rfl hintactR
        have hmerged : Graph.mergeLabels cl.subtreeLabels cr.subtreeLabels = (Tree.node q l r).leafLabels := by
          rw [hlabelsL', hlabelsR]
          exact hintactR.mergeLabels
        have hwords : ws = (s.nodes q).subtreeTerminals := by
          rw [hmerged, hintact.collectTerminals] at hws
          exact (Option.some.inj hws).symm
        refine ⟨?_, hmerged, ?_, ?_⟩
        · simp only [Bool.and_eq_true, decide_eq_true_eq, Bool.not_eq_true']
          rw [hordered r rfl hintactR]
          rw [heqL]
          exact ⟨⟨⟨⟨⟨⟨⟨hp, horder⟩, hlp⟩, hls⟩, hrp⟩, hrs⟩, hvalidR⟩, hwords⟩
        · rw [hnodesR]
          ext x
          simp only [Finset.mem_union, Finset.mem_insert, List.mem_toFinset, Tree.ptrs, List.mem_cons, List.mem_append]
          tauto
        · rw [hleastR, hleastL', Tree.least_node]
          omega

/-- **A run of `checkTriple` was safe** and describes the subtree. -/
theorem checkTriple_spec (h32 : ∀ p x, s.terminalToLabel p = some x → x < 2 ^ 32) {fuel : ℕ}
    (h : checkTriple s fuel p seen m = some c) : Safe s seen p ∧ Describes s seen p m c := by
  induction fuel generalizing p seen m c with
  | zero => cases h
  | succ fuel ih =>
      have hleaf : ∀ t : Tree, t.ptr = p → Intact s seen t →
          (s.nodes p).leftChild = t.leftPtr ∧ (s.nodes p).rightChild = t.rightPtr := fun t ht hintact => by
        subst ht
        have hrec := hintact.stored.root
        exact ⟨by rw [hrec]; rfl, by rw [hrec]; rfl⟩
      simp only [checkTriple] at h
      cases hl : (s.nodes p).leftChild with
      | none =>
          cases hr : (s.nodes p).rightChild with
          | none =>
              rw [hl, hr] at h
              cases hx : s.terminalToLabel p with
              | none =>
                  rw [hx] at h
                  refine ⟨.terminal hl hr fun x hx' => Option.some_ne_none x (hx'.symm.trans hx) |>.elim,
                    .broken h rfl (fun t ht hintact => ?_) fun e he => absurd he List.not_mem_nil⟩
                  cases t with
                  | leaf q x m' =>
                      obtain rfl : q = p := ht
                      have := (hintact.terminals q x m' (Tree.mem_subtrees_self _)).2.2.1
                      rw [hx] at this
                      cases this
                  | node q l r =>
                      have := (hleaf _ ht hintact).1
                      rw [hl] at this
                      cases this
              | some x =>
                  rw [hx] at h
                  obtain ⟨q, hq, h⟩ := Option.bind_eq_some_iff.1 h
                  obtain ⟨hx64, hdescribes⟩ := Describes.terminal (h32 p x hx) hl hr hx hq h
                  refine ⟨.terminal hl hr fun y hy => ?_, hdescribes⟩
                  obtain rfl := Option.some.inj (hx.symm.trans hy)
                  exact ⟨hx64.1, hx64.2, by rw [hq]; rfl⟩
          | some right =>
              rw [hl, hr] at h
              refine ⟨.single (by rw [hl, hr]; simp), .broken h rfl (fun t ht hintact => ?_)
                fun e he => absurd he List.not_mem_nil⟩
              have := hleaf t ht hintact
              rw [hl, hr] at this
              cases t with
              | leaf => cases this.2
              | node => cases this.1
      | some left =>
          cases hr : (s.nodes p).rightChild with
          | none =>
              rw [hl, hr] at h
              refine ⟨.single (by rw [hl, hr]; simp), .broken h rfl (fun t ht hintact => ?_)
                fun e he => absurd he List.not_mem_nil⟩
              have := hleaf t ht hintact
              rw [hl, hr] at this
              cases t with
              | leaf => cases this.1
              | node => cases this.2
          | some right =>
              rw [hl, hr] at h
              obtain ⟨unordered, hread, h⟩ := Option.bind_eq_some_iff.1 h
              obtain ⟨cl, hcl, h⟩ := Option.bind_eq_some_iff.1 h
              obtain ⟨hsafeL, hdescL⟩ := ih hcl
              cases hvalid : cl.tripleValid with
              | false =>
                  rw [hvalid, if_neg Bool.false_ne_true] at h
                  have hno : ∀ t : Tree, t.ptr = left → ¬Intact s (insert p seen) t := fun t ht hintact => by
                    have := (hdescL.complete t ht hintact).1
                    rw [hvalid] at this
                    cases this
                  refine ⟨.inner hl hr (by rw [hread]; rfl) hsafeL fun t ht hintact => absurd hintact (hno t ht),
                    .broken h rfl (fun t ht hintact => ?_) hdescL.labels⟩
                  cases t with
                  | leaf q x m' =>
                      have := (hleaf _ ht hintact).1
                      rw [hl] at this
                      cases this
                  | node q a b =>
                      have hptr := (hleaf _ ht hintact).1
                      obtain rfl : q = p := ht
                      rw [hl] at hptr
                      exact hno a (Option.some.inj hptr).symm hintact.children.2.1
              | true =>
                  rw [hvalid, if_pos rfl] at h
                  obtain ⟨cr, hcr, h⟩ := Option.bind_eq_some_iff.1 h
                  obtain ⟨hsafeR, hdescR⟩ := ih hcr
                  refine ⟨.inner hl hr (by rw [hread]; rfl) hsafeL fun t ht hintact => ?_,
                    .inner hl hr hread hdescL hvalid hdescR h⟩
                  rw [← (hdescL.complete t ht hintact).2.2.1]
                  exact hsafeR

/-- `checkTriple` of a terminal. -/
theorem checkTriple_terminal {fuel : ℕ} {x : Label} {q : Ptr} (hl : (s.nodes p).leftChild = none)
    (hr : (s.nodes p).rightChild = none) (hx : s.terminalToLabel p = some x) (hq : s.labelToTerminal x = some q) :
    checkTriple s (fuel + 1) p seen m = compareTerminals s.nodes p
      ⟨decide (p ∉ seen) && decide (q = p), [(p, x)], insert p seen, min x m⟩ := by
  simp only [checkTriple, hl, hr, hx]
  rw [hq, Option.bind_eq_bind, Option.bind_some]

/-- **A safe walk ends.** -/
theorem Safe.exists_checkTriple (h32 : ∀ p x, s.terminalToLabel p = some x → x < 2 ^ 32) (h : Safe s seen p) :
    ∃ bound, ∀ fuel, bound ≤ fuel → ∀ m, ∃ c, checkTriple s fuel p seen m = some c := by
  induction h with
  | @terminal seen p hl hr hlabel =>
      refine ⟨1, fun fuel hfuel m => ?_⟩
      obtain ⟨fuel, rfl⟩ : ∃ k, fuel = k + 1 := ⟨fuel - 1, by omega⟩
      cases hx : s.terminalToLabel p with
      | none =>
          simp only [checkTriple, hl, hr, hx]
          refine exists_compareTerminals ?_
          exact fun e he => absurd he List.not_mem_nil
      | some x =>
          obtain ⟨hpos, h64, hback⟩ := hlabel x hx
          obtain ⟨q, hq⟩ := Option.isSome_iff_exists.1 hback
          rw [checkTriple_terminal hl hr hx hq]
          refine exists_compareTerminals fun e he => ?_
          rw [List.mem_singleton.1 he]
          exact ⟨hpos, h64⟩
  | @single seen p hone =>
      refine ⟨1, fun fuel hfuel m => ?_⟩
      obtain ⟨fuel, rfl⟩ : ∃ k, fuel = k + 1 := ⟨fuel - 1, by omega⟩
      simp only [checkTriple]
      cases hl : (s.nodes p).leftChild <;> cases hr : (s.nodes p).rightChild
      · rw [hl, hr] at hone
        exact absurd rfl hone
      · refine exists_compareTerminals ?_
        exact fun e he => absurd he List.not_mem_nil
      · refine exists_compareTerminals ?_
        exact fun e he => absurd he List.not_mem_nil
      · rw [hl, hr] at hone
        exact absurd rfl hone
  | @inner seen p l r hl hr hread _ hright ihl ihr =>
      obtain ⟨bl, hbl⟩ := ihl
      obtain ⟨unordered, hun⟩ := Option.isSome_iff_exists.1 hread
      by_cases hintact : ∃ t : Tree, t.ptr = l ∧ Intact s (insert p seen) t
      · obtain ⟨t, ht, hintact⟩ := hintact
        obtain ⟨br, hbr⟩ := ihr t ht hintact
        refine ⟨max bl br + 1, fun fuel hfuel m => ?_⟩
        obtain ⟨fuel, rfl⟩ : ∃ k, fuel = k + 1 := ⟨fuel - 1, by omega⟩
        obtain ⟨cl, hcl⟩ := hbl fuel (by omega) m
        obtain ⟨-, hdescL⟩ := checkTriple_spec h32 hcl
        obtain ⟨hvalid, -, hnodes, -⟩ := hdescL.complete t ht hintact
        obtain ⟨cr, hcr⟩ := hbr fuel (by omega) cl.smallestTerminal
        rw [← hnodes] at hcr
        obtain ⟨-, hdescR⟩ := checkTriple_spec h32 hcr
        simp only [checkTriple, hl, hr, hun, hcl, hvalid, hcr, Option.bind_eq_bind, Option.bind_some, if_true]
        refine exists_compareTerminals ?_
        exact fun e he => (mem_mergeLabels he).elim (hdescL.labels e) (hdescR.labels e)
      · refine ⟨bl + 1, fun fuel hfuel m => ?_⟩
        obtain ⟨fuel, rfl⟩ : ∃ k, fuel = k + 1 := ⟨fuel - 1, by omega⟩
        obtain ⟨cl, hcl⟩ := hbl fuel (by omega) m
        obtain ⟨-, hdescL⟩ := checkTriple_spec h32 hcl
        have hvalid : cl.tripleValid = false := Bool.eq_false_iff.2 fun h => hintact (hdescL.sound h)
        simp only [checkTriple, hl, hr, hun, hcl, hvalid, Option.bind_eq_bind, Option.bind_some, Bool.false_eq_true,
          if_false]
        refine exists_compareTerminals ?_
        exact hdescL.labels

end Walk

section Roots

variable {s : Store} {fuel : ℕ} {roots : List Ptr} {σ σ' : Checking} {F : Forest}

/-- An entry is kept when both maps agree. -/
theorem mem_mergeLabels_iff {a b : List (Ptr × Label)} (ha : ∀ e ∈ a, s.terminalToLabel e.1 = some e.2)
    (hb : ∀ e ∈ b, s.terminalToLabel e.1 = some e.2) (e : Ptr × Label) : e ∈ mergeLabels a b ↔ e ∈ a ∨ e ∈ b := by
  refine ⟨mem_mergeLabels, fun h => ?_⟩
  rw [mergeLabels, List.mem_append]
  by_cases hmem : e.1 ∈ a.map Prod.fst
  · refine Or.inl (h.elim id fun he => ?_)
    obtain ⟨e', he', heq⟩ := List.mem_map.1 hmem
    have hx := ha e' he'
    rw [heq] at hx
    rwa [show e = e' from Prod.ext heq.symm (Option.some.inj ((hb e he).symm.trans hx))]
  · exact h.imp_right fun he => List.mem_filter.2 ⟨he, decide_eq_true hmem⟩

/-- The leaves of an intact tree have their labels in the map. -/
theorem Intact.mapped {seen : Finset Ptr} {t : Tree} (h : Intact s seen t) :
    ∀ e ∈ t.leafLabels, s.terminalToLabel e.1 = some e.2 := fun e he => by
  obtain ⟨m, hm⟩ := Tree.mem_leafLabels.1 (show (e.1, e.2) ∈ t.leafLabels from he)
  exact (h.terminals _ _ _ hm).2.2.1

/-- The smallest label of an intact subtree is below the start value. -/
theorem Intact.min_least {seen : Finset Ptr} {t : Tree} (h : Intact s seen t) : min t.least (2 ^ 32 - 1) = t.least := by
  have hmem := t.least_mem_labels
  rw [← Tree.toFinset_leafLabels, List.mem_toFinset] at hmem
  obtain ⟨e, he, heq⟩ := List.mem_map.1 hmem
  have hle : t.least ≤ 64 := heq ▸ (h.label_le e he).2
  exact min_eq_left (hle.trans (by norm_num))

/-- What the check of a root comes to. -/
theorem checkRoot_eq_some {root : Ptr} : checkRoot s fuel σ root = some σ' ↔
    ∃ c, checkTriple s fuel root ∅ (2 ^ 32 - 1) = some c ∧
      σ' = ⟨σ.valid && (s.nodes root).parent.isNone && c.tripleValid &&
          !decide (c.smallestTerminal < σ.lastSmallestTerminal),
        mergeLabels σ.totalLeafs c.subtreeLabels, c.smallestTerminal⟩ := by
  rw [checkRoot, Option.bind_eq_bind, Option.bind_eq_some_iff]
  exact exists_congr fun c => and_congr_right fun _ => ⟨fun h => (Option.some.inj h).symm,
    fun h => congrArg some h.symm⟩

/-- The trees of the roots are intact, and sorted from a label on. -/
structure Rooted (s : Store) (last : ℕ) (roots : List Ptr) (F : Forest) : Prop where
  roots : roots = F.map Tree.ptr
  parent : ∀ t ∈ F, (s.nodes t.ptr).parent = none
  intact : ∀ t ∈ F, Intact s ∅ t
  above : ∀ t ∈ F, last ≤ t.least
  sorted : F.Pairwise fun t u => t.least ≤ u.least

/-- **The loop over the roots** finds out whether their trees are intact and sorted. -/
theorem checkRoots_spec (h32 : ∀ p x, s.terminalToLabel p = some x → x < 2 ^ 32)
    (h : roots.foldlM (checkRoot s fuel) σ = some σ') : (∀ r ∈ roots, Safe s ∅ r) ∧
      (σ'.valid = true → σ.valid = true ∧ ∃ F, Rooted s σ.lastSmallestTerminal roots F) ∧
      ∀ F, Rooted s σ.lastSmallestTerminal roots F → σ.valid = true →
        (∀ e ∈ σ.totalLeafs, s.terminalToLabel e.1 = some e.2) →
        σ'.valid = true ∧ ∀ e, e ∈ σ'.totalLeafs ↔ e ∈ σ.totalLeafs ∨ ∃ t ∈ F, e ∈ t.leafLabels := by
  induction roots generalizing σ with
  | nil =>
      obtain rfl := Option.some.inj h
      refine ⟨fun r hr => absurd hr List.not_mem_nil,
        fun hvalid => ⟨hvalid, [], rfl, by simp, by simp, by simp, List.Pairwise.nil⟩, fun F hF hvalid _ => ?_⟩
      obtain rfl := List.map_eq_nil_iff.1 hF.roots.symm
      exact ⟨hvalid, fun e => by simp⟩
  | cons r roots ih =>
      rw [List.foldlM_cons] at h
      obtain ⟨σ₁, hσ₁, h⟩ := Option.bind_eq_some_iff.1 h
      obtain ⟨c, hc, rfl⟩ := checkRoot_eq_some.1 hσ₁
      obtain ⟨hsafe, hdesc⟩ := checkTriple_spec h32 hc
      obtain ⟨hsafes, hsound, hcomplete⟩ := ih h
      refine ⟨List.forall_mem_cons.2 ⟨hsafe, hsafes⟩, fun hvalid => ?_, fun F hF hvalid hmapped => ?_⟩
      · obtain ⟨hfirst, F, hF⟩ := hsound hvalid
        simp only [Bool.and_eq_true, Bool.not_eq_true', decide_eq_false_iff_not, Option.isNone_iff_eq_none] at hfirst
        obtain ⟨⟨⟨hσ, hparent⟩, htriple⟩, horder⟩ := hfirst
        obtain ⟨t, rfl, ht⟩ := hdesc.sound htriple
        have hleast := (hdesc.complete t rfl ht).2.2.2.trans ht.min_least
        have habove : ∀ u ∈ F, t.least ≤ u.least := fun u hu => hleast ▸ hF.above u hu
        rw [hleast] at horder
        refine ⟨hσ, t :: F, by rw [hF.roots]; rfl, ?_, ?_, ?_, List.pairwise_cons.2 ⟨habove, hF.sorted⟩⟩
        · exact List.forall_mem_cons.2 ⟨hparent, hF.parent⟩
        · exact List.forall_mem_cons.2 ⟨ht, hF.intact⟩
        · exact List.forall_mem_cons.2 ⟨not_lt.1 horder, fun u hu => (not_lt.1 horder).trans (habove u hu)⟩
      · cases F with
        | nil => cases hF.roots
        | cons t F =>
            obtain ⟨rfl, hroots⟩ := List.cons.inj hF.roots
            obtain ⟨hparent, hparents⟩ := List.forall_mem_cons.1 hF.parent
            obtain ⟨ht, hts⟩ := List.forall_mem_cons.1 hF.intact
            obtain ⟨hsorted, hpair⟩ := List.pairwise_cons.1 hF.sorted
            obtain ⟨htriple, hlabels, -, hleast⟩ := hdesc.complete t rfl ht
            rw [ht.min_least] at hleast
            have hmapped' : ∀ e ∈ mergeLabels σ.totalLeafs c.subtreeLabels, s.terminalToLabel e.1 = some e.2 :=
              fun e he => (mem_mergeLabels he).elim (hmapped e) fun he => ht.mapped e (hlabels ▸ he)
            obtain ⟨hvalid', hmem⟩ := hcomplete F ⟨hroots, hparents, hts, fun u hu => hleast ▸ hsorted u hu, hpair⟩ (by
              simp only [Bool.and_eq_true, Bool.not_eq_true', decide_eq_false_iff_not, Option.isNone_iff_eq_none]
              exact ⟨⟨⟨hvalid, hparent⟩, htriple⟩, hleast ▸ not_lt.2 (hF.above t (List.mem_cons_self ..))⟩) hmapped'
            refine ⟨hvalid', fun e => ?_⟩
            rw [hmem, mem_mergeLabels_iff hmapped (hlabels ▸ ht.mapped), hlabels, List.exists_mem_cons_iff, or_assoc]

/-- The checks of roots that are safe to walk end. -/
theorem exists_checkRoots (h32 : ∀ p x, s.terminalToLabel p = some x → x < 2 ^ 32) (h : ∀ r ∈ roots, Safe s ∅ r) :
    ∃ bound, ∀ fuel, bound ≤ fuel → ∀ σ, ∃ σ', roots.foldlM (checkRoot s fuel) σ = some σ' := by
  induction roots with
  | nil => exact ⟨0, fun fuel _ σ => ⟨σ, rfl⟩⟩
  | cons r roots ih =>
      rw [List.forall_mem_cons] at h
      obtain ⟨b₁, h₁⟩ := h.1.exists_checkTriple h32
      obtain ⟨b₂, h₂⟩ := ih h.2
      refine ⟨max b₁ b₂, fun fuel hfuel σ => ?_⟩
      obtain ⟨c, hc⟩ := h₁ fuel (le_of_max_le_left hfuel) (2 ^ 32 - 1)
      have hroot : checkRoot s fuel σ r = some _ := checkRoot_eq_some.2 ⟨c, hc, rfl⟩
      obtain ⟨σ', hσ'⟩ := h₂ fuel (le_of_max_le_right hfuel) _
      exact ⟨σ', by rw [List.foldlM_cons, hroot]; exact hσ'⟩

/-- `sameLeafs` compares the map with the leaves that were met. -/
theorem sameLeafs_iff {keys : List Ptr} (hkeys : ∀ p, p ∈ keys ↔ (s.terminalToLabel p).isSome)
    {totalLeafs : List (Ptr × Label)} : sameLeafs keys s totalLeafs = true ↔
      ∀ p x, s.terminalToLabel p = some x ↔ (p, x) ∈ totalLeafs := by
  rw [sameLeafs, Bool.and_eq_true, List.all_eq_true, List.all_eq_true]
  constructor
  · rintro ⟨hall, hback⟩ p x
    refine ⟨fun h => ?_, fun h => of_decide_eq_true (hback (p, x) h)⟩
    have := hall p ((hkeys p).2 (by rw [h]; rfl))
    rw [h] at this
    exact of_decide_eq_true this
  · intro h
    refine ⟨fun p hp => ?_, fun e he => decide_eq_true ((h e.1 e.2).2 he)⟩
    obtain ⟨x, hx⟩ := Option.isSome_iff_exists.1 ((hkeys p).1 hp)
    rw [hx]
    exact decide_eq_true ((h p x).1 hx)

/-- **`isValid` returns a value exactly on a safe walk**, and returns true exactly when what
it looks at is in order. -/
theorem isValid_spec {keys : List Ptr} (h32 : ∀ p x, s.terminalToLabel p = some x → x < 2 ^ 32)
    (hkeys : ∀ p, p ∈ keys ↔ (s.terminalToLabel p).isSome) :
    ((∃ fuel b, isValid keys fuel s = some b) → SafeWalk s) ∧
      (SafeWalk s → ∃ bound, ∀ fuel, bound ≤ fuel → ∃ b, isValid keys fuel s = some b) ∧
      ∀ fuel b, isValid keys fuel s = some b → (b = true ↔ ∃ F, Passes s F) := by
  refine ⟨?_, fun h => ?_, fun fuel b h => ?_⟩
  · rintro ⟨fuel, b, h⟩
    rw [isValid] at h
    obtain ⟨σ, hσ, -⟩ := Option.bind_eq_some_iff.1 h
    exact (checkRoots_spec h32 hσ).1
  · obtain ⟨bound, hbound⟩ := exists_checkRoots h32 h
    refine ⟨bound, fun fuel hfuel => ?_⟩
    obtain ⟨σ, hσ⟩ := hbound fuel hfuel ⟨true, [], 0⟩
    exact ⟨_, by rw [isValid, hσ]; rfl⟩
  · rw [isValid] at h
    obtain ⟨σ, hσ, h⟩ := Option.bind_eq_some_iff.1 h
    obtain rfl := Option.some.inj h
    obtain ⟨-, hsound, hcomplete⟩ := checkRoots_spec h32 hσ
    have hleaf : ∀ {F : Forest}, (∀ t ∈ F, Intact s ∅ t) → ∀ p x,
        (∃ t ∈ F, (p, x) ∈ t.leafLabels) ↔ Tree.leaf p x ∅ ∈ F.subtrees := fun {F} hF p x => by
      rw [Forest.mem_subtrees]
      refine exists_congr fun t => and_congr_right fun ht => ?_
      rw [Tree.mem_leafLabels]
      constructor
      · rintro ⟨m, hm⟩
        exact ((hF t ht).terminals p x m hm).1 ▸ hm
      · exact fun hm => ⟨∅, hm⟩
    rw [Bool.and_eq_true, sameLeafs_iff hkeys]
    constructor
    · rintro ⟨hvalid, hsame⟩
      obtain ⟨-, F, hF⟩ := hsound hvalid
      obtain ⟨-, hmem⟩ := hcomplete F hF rfl fun e he => absurd he List.not_mem_nil
      refine ⟨F, hF.roots, hF.parent, hF.intact, hF.sorted, fun p x => ?_⟩
      rw [hsame, hmem, ← hleaf hF.intact]
      exact or_iff_right List.not_mem_nil
    · rintro ⟨F, hF⟩
      obtain ⟨hvalid, hmem⟩ := hcomplete F ⟨hF.roots, hF.parent, hF.intact, fun t _ => Nat.zero_le _, hF.sorted⟩ rfl
        fun e he => absurd he List.not_mem_nil
      refine ⟨hvalid, fun p x => ?_⟩
      rw [hF.terminals, hmem, ← hleaf hF.intact]
      exact (or_iff_right List.not_mem_nil).symm

end Roots

section Invariant

variable {s : Store} {F : Forest} {t u : Tree} {p : Ptr} {keys : List Ptr}

/-- One word with the bits of a set is the first word of the set. -/
theorem IsBitset.eq_encode {ws : List Word} {S : Finset ℕ} (h : IsBitset ws S) (hlen : ws.length = 1) :
    ws = encode 1 S ∧ Within 1 S := by
  obtain ⟨w, rfl⟩ := List.length_eq_one_iff.1 hlen
  have hword : w = word S 0 := Bitset.word_ext fun j hj => by
    have hmem := h.2 (j + 1) (Nat.succ_pos j)
    rw [Bitset.mem, Nat.add_sub_cancel, Nat.div_eq_of_lt hj, Nat.mod_eq_of_lt hj] at hmem
    rw [Nat.mul_zero, Nat.zero_add]
    exact Bool.eq_iff_iff.2 (hmem.trans decide_eq_true_iff.symm)
  refine ⟨by rw [hword]; rfl, fun x hx => ⟨h.1 x hx, ?_⟩⟩
  by_contra hlarge
  have hmem := (h.2 x (h.1 x hx)).2 hx
  obtain ⟨k, hk⟩ : ∃ k, (x - 1) / 64 = k + 1 := ⟨(x - 1) / 64 - 1, by omega⟩
  rw [Bitset.mem, hk] at hmem
  simp at hmem

/-- The words of a set have its bits. -/
theorem isBitset_encode {width : ℕ} {S : Finset ℕ} (hS : Within width S) : IsBitset (encode width S) S := by
  refine ⟨fun x hx => (hS x hx).1, fun x hx => ?_⟩
  by_cases hle : x ≤ 64 * width
  · rw [Bitset.mem_encode hx hle, decide_eq_true_iff]
  · refine ⟨fun hmem => ?_, fun hmem => absurd (hS x hmem).2 hle⟩
    have hlen : (encode width S).length ≤ (x - 1) / 64 := by
      rw [Bitset.length_encode]
      omega
    rw [Bitset.mem, List.getD_eq_default _ _ hlen] at hmem
    simp at hmem

/-- A stored tree is represented. -/
theorem represented_of_stored {width : ℕ} {h : Nodes} {parent sibling : Option Ptr}
    (ht : t.Stored width h parent sibling)
    (hw : Within width t.subtreeTerminals) : t.Represented h parent sibling := by
  have root : ∀ {t : Tree} {parent sibling : Option Ptr}, h t.ptr = t.record width parent sibling →
    Within width t.subtreeTerminals →
      (h t.ptr).parent = parent ∧ (h t.ptr).sibling = sibling ∧ (h t.ptr).leftChild = t.leftPtr ∧
        (h t.ptr).rightChild = t.rightPtr ∧ IsBitset (h t.ptr).subtreeTerminals t.subtreeTerminals := by
    intro t parent sibling hrec hw
    rw [hrec]
    exact ⟨rfl, rfl, rfl, rfl, isBitset_encode hw⟩
  induction t generalizing parent sibling with
  | leaf p x m => exact root (t := .leaf p x m) ht hw
  | node p l r ihl ihr =>
      exact ⟨root (t := .node p l r) ht.1 hw, ihl ht.2.1 (hw.mono Finset.subset_union_left),
        ihr ht.2.2 (hw.mono Finset.subset_union_right)⟩

/-- A represented tree whose nodes have one word is stored. -/
theorem stored_of_represented {h : Nodes} {parent sibling : Option Ptr} (ht : t.Represented h parent sibling)
    (hone : ∀ q ∈ t.ptrs, (h q).subtreeTerminals.length = 1) :
    t.Stored 1 h parent sibling ∧ Within 1 t.subtreeTerminals := by
  have root : ∀ {n : Node} {parent sibling left right : Option Ptr} {S : Finset Label}, (n.parent = parent ∧
      n.sibling = sibling ∧ n.leftChild = left ∧ n.rightChild = right ∧ IsBitset n.subtreeTerminals S) →
      n.subtreeTerminals.length = 1 → n = ⟨parent, sibling, left, right, encode 1 S⟩ ∧ Within 1 S := by
    rintro n parent sibling left right S ⟨rfl, rfl, rfl, rfl, hbits⟩ hlen
    obtain ⟨hwords, hw⟩ := hbits.eq_encode hlen
    exact ⟨by rw [← hwords], hw⟩
  induction t generalizing parent sibling with
  | leaf p x m => exact root ht (hone p (List.mem_singleton_self p))
  | node p l r ihl ihr =>
      obtain ⟨hp, hl, hr⟩ := ht
      obtain ⟨hnode, hw⟩ := root hp (hone p (List.mem_cons_self ..))
      exact ⟨⟨hnode, (ihl hl fun q hq => hone q (List.mem_cons_of_mem _ (List.mem_append_left _ hq))).1,
        (ihr hr fun q hq => hone q (List.mem_cons_of_mem _ (List.mem_append_right _ hq))).1⟩, hw⟩

/-- The nodes of a represented tree are reachable. -/
theorem reachable_of_represented {parent sibling : Option Ptr} (ht : t.Represented s.nodes parent sibling)
    (hroot : Reachable s t.ptr) : ∀ q ∈ t.ptrs, Reachable s q := by
  induction t generalizing parent sibling with
  | leaf p x m =>
      intro q hq
      rw [List.mem_singleton.1 hq]
      exact hroot
  | node p l r ihl ihr =>
      obtain ⟨⟨-, -, hleft, hright, -⟩, hl, hr⟩ := ht
      intro q hq
      rcases List.mem_cons.1 hq with rfl | hq
      · exact hroot
      · rcases List.mem_append.1 hq with hq | hq
        · exact ihl hl (.left hroot hleft) q hq
        · exact ihr hr (.right hroot hright) q hq

/-- The nodes below the roots are those of the trees. -/
theorem Passes.exists_of_reachable (h : Passes s F) (hp : Reachable s p) : ∃ t ∈ F, p ∈ t.ptrs := by
  induction hp with
  | @root p hp =>
      rw [h.roots] at hp
      obtain ⟨t, ht, rfl⟩ := List.mem_map.1 hp
      exact ⟨t, ht, Tree.ptr_mem_ptrs (Tree.mem_subtrees_self t)⟩
  | left _ hq ih =>
      obtain ⟨t, ht, hpt⟩ := ih
      exact ⟨t, ht, ((h.intact t ht).stored.parent_of_child hpt (Or.inl hq)).1⟩
  | right _ hq ih =>
      obtain ⟨t, ht, hpt⟩ := ih
      exact ⟨t, ht, ((h.intact t ht).stored.parent_of_child hpt (Or.inr hq)).1⟩

/-- What passes has one word. -/
theorem Passes.oneWord (h : Passes s F) : OneWord s := fun p hp => by
  obtain ⟨t, ht, hpt⟩ := h.exists_of_reachable hp
  rw [← Tree.map_ptr_subtrees] at hpt
  obtain ⟨n, hn, rfl⟩ := List.mem_map.1 hpt
  obtain ⟨_, _, hstored⟩ := (h.intact t ht).stored.of_mem hn
  rw [hstored.words, Bitset.length_encode]

/-- **A represented forest of one word passes.** -/
theorem Represents.passes (h : Represents s F) (hone : OneWord s) : Passes s F := by
  refine ⟨h.roots, fun t ht => ?_, fun t ht => ?_, h.valid.sorted.imp le_of_lt, fun p x => ?_⟩
  · have := h.nodes t ht
    cases t with
    | leaf => exact this.1
    | node => exact this.1.1
  · have hreach := reachable_of_represented (h.nodes t ht) (.root (h.roots ▸ List.mem_map_of_mem ht))
    obtain ⟨hstored, hw⟩ := stored_of_represented (h.nodes t ht) fun q hq => hone q (hreach q hq)
    have hmem : ∀ {n : Tree}, n ∈ t.subtrees → n ∈ F.subtrees := fun hn => Forest.mem_subtrees.2 ⟨t, ht, hn⟩
    refine ⟨?_, h.valid.tree t ht, ?_, fun q _ => Finset.notMem_empty q, fun p x m hm => ?_⟩
    · rw [hstored.root]
      exact hstored
    · exact (List.nodup_flatMap.1 h.valid.nodup).1 t ht
    · have hx : x ∈ t.subtreeTerminals :=
        Tree.labels_subset_subtreeTerminals t (Tree.labels_subset_of_mem_subtrees hm (Finset.mem_singleton_self x))
      exact ⟨h.uncollapsed p x m (hmem hm), (hw x hx).2, (h.mapped.terminalToLabel p x).2 ⟨m, hmem hm⟩,
        (h.mapped.labelToTerminal p x).2 ⟨m, hmem hm⟩⟩
  · rw [h.mapped.terminalToLabel]
    exact ⟨fun ⟨m, hm⟩ => h.uncollapsed p x m hm ▸ hm, fun hm => ⟨∅, hm⟩⟩

/-- No label belongs to a node that is not its terminal. -/
def NoOtherLabels (s : Store) : Prop := ∀ x p, s.labelToTerminal x = some p → s.terminalToLabel p = some x

/-- A represented forest lists no root twice and maps no other labels. -/
theorem Represents.nodup_roots (h : Represents s F) : s.roots.Nodup ∧ NoOtherLabels s := by
  refine ⟨?_, fun x p hp => ?_⟩
  · rw [h.roots]
    refine List.pairwise_map.2 ((List.nodup_flatMap.1 h.valid.nodup).2.imp fun {t u} hd heq => ?_)
    exact hd (Tree.ptr_mem_ptrs (Tree.mem_subtrees_self t)) (heq ▸ Tree.ptr_mem_ptrs (Tree.mem_subtrees_self u))
  · exact (h.mapped.terminalToLabel p x).2 ((h.mapped.labelToTerminal p x).1 hp)

/-- Trees with different roots have no node in common: whoever climbs from it ends at the
root of both. -/
theorem Passes.disjoint_ptrs (h : Passes s F) (ht : t ∈ F) (hu : u ∈ F) (hne : t.ptr ≠ u.ptr) :
    ∀ x ∈ t.ptrs, x ∉ u.ptrs := by
  intro x hxt hxu
  have hup : ∀ y ∈ u.ptrs, ∀ z, (s.nodes y).parent = some z → z ∈ u.ptrs := fun y hy z hz => by
    rcases (h.intact u hu).stored.parent_mem hy hz with ⟨-, hroot⟩ | hmem
    · rw [h.parent u hu] at hroot
      cases hroot
    · exact hmem
  have htu : t.ptr ∈ u.ptrs := (h.intact t ht).stored.root_mem (D := fun y => y ∈ u.ptrs) hup hxt hxu
  have hut := (h.intact u hu).stored.root_mem (D := fun y => y = t.ptr) (fun y hy z hz => by
    rw [show y = t.ptr from hy, h.parent t ht] at hz
    cases hz) htu rfl
  exact hne (Eq.symm hut)

/-- **What passes is represented**, when no root is listed twice and no other labels are
mapped. -/
theorem Passes.represents (h : Passes s F) (hroots : s.roots.Nodup) (hlabels : NoOtherLabels s) : Represents s F := by
  rw [h.roots] at hroots
  have hmem : ∀ {t n : Tree}, t ∈ F → n ∈ t.subtrees → n ∈ F.subtrees := fun ht hn => Forest.mem_subtrees.2 ⟨_, ht, hn⟩
  have hempty : ∀ p x m, Tree.leaf p x m ∈ F.subtrees → m = ∅ := fun p x m hm => by
    obtain ⟨t, ht, hm⟩ := Forest.mem_subtrees.1 hm
    exact ((h.intact t ht).terminals p x m hm).1
  have hptrs : F.Pairwise fun t u => ∀ x ∈ t.ptrs, x ∉ u.ptrs :=
    (List.pairwise_map.1 hroots).imp_of_mem fun ht hu hne => h.disjoint_ptrs ht hu hne
  have hdisjoint : F.Pairwise fun t u => Disjoint t.subtreeTerminals u.subtreeTerminals := by
    refine hptrs.imp_of_mem fun {t u} ht hu hcross => ?_
    rw [(h.intact t ht).subtreeTerminals_eq, (h.intact u hu).subtreeTerminals_eq]
    refine Finset.disjoint_left.2 fun x hxt hxu => ?_
    obtain ⟨a, m, ha⟩ := Tree.exists_leaf hxt
    obtain ⟨b, m', hb⟩ := Tree.exists_leaf hxu
    obtain rfl := Option.some.inj
      (((h.intact t ht).terminals a x m ha).2.2.2.symm.trans ((h.intact u hu).terminals b x m' hb).2.2.2)
    exact hcross a (Tree.ptr_mem_ptrs ha) (Tree.ptr_mem_ptrs hb)
  refine ⟨⟨fun t ht => (h.intact t ht).valid, hdisjoint, ?_, ?_⟩, hempty, h.roots, fun t ht => ?_, ?_, ?_⟩
  · refine h.sorted.imp₂ (fun t u hle hd => lt_of_le_of_ne hle fun heq => ?_) hdisjoint
    refine Finset.disjoint_left.1 hd (Tree.labels_subset_subtreeTerminals t t.least_mem_labels) ?_
    rw [heq]
    exact Tree.labels_subset_subtreeTerminals u u.least_mem_labels
  · exact List.nodup_flatMap.2 ⟨fun t ht => (h.intact t ht).nodup, hptrs⟩
  · have hstored := (h.intact t ht).stored
    rw [h.parent t ht] at hstored
    exact represented_of_stored hstored (h.intact t ht).within
  · intro p x
    rw [h.terminals]
    exact ⟨fun hm => ⟨∅, hm⟩, fun ⟨m, hm⟩ => hempty p x m hm ▸ hm⟩
  · intro p x
    constructor
    · exact fun hp => ⟨∅, (h.terminals p x).1 (hlabels x p hp)⟩
    · rintro ⟨m, hm⟩
      obtain ⟨t, ht, hm⟩ := Forest.mem_subtrees.1 hm
      exact ((h.intact t ht).terminals p x m hm).2.2.2

/-- **A forest that was just read is represented.** -/
theorem represents_of_fresh {width : ℕ} (h : F.Fresh width s) : Represents s F := by
  refine ⟨h.wellFormed.valid, h.uncollapsed, h.wellFormed.stored.roots, fun t ht => ?_, h.mapped⟩
  have hstored := h.wellFormed.stored.trees t ht
  have hsib : (s.nodes t.ptr).sibling = none := by rw [hstored.root]; rfl
  rw [hsib]
  exact represented_of_stored hstored (h.wellFormed.within t ht)

/-- `isValid` ends without a read or write outside of a vector, and returns true exactly
for the representation invariant. -/
def Decides (keys : List Ptr) (s : Store) : Prop :=
  ∃ bound, ∀ fuel, bound ≤ fuel → ∃ b, isValid keys fuel s = some b ∧ (b = true ↔ RepresentationInvariant s)

/-- A check that decides walks safely. -/
theorem Decides.safeWalk (h32 : ∀ p x, s.terminalToLabel p = some x → x < 2 ^ 32)
    (hkeys : ∀ p, p ∈ keys ↔ (s.terminalToLabel p).isSome) (h : Decides keys s) : SafeWalk s := by
  obtain ⟨bound, hbound⟩ := h
  obtain ⟨b, hb, -⟩ := hbound bound le_rfl
  exact (isValid_spec h32 hkeys).1 ⟨bound, b, hb⟩

/-- Only a represented forest of one word is told from the others. -/
theorem Decides.oneWord (h32 : ∀ p x, s.terminalToLabel p = some x → x < 2 ^ 32)
    (hkeys : ∀ p, p ∈ keys ↔ (s.terminalToLabel p).isSome) (h : Decides keys s) (hrep : RepresentationInvariant s) :
    OneWord s := by
  obtain ⟨bound, hbound⟩ := h
  obtain ⟨b, hb, hiff⟩ := hbound bound le_rfl
  obtain ⟨F, hF⟩ := ((isValid_spec h32 hkeys).2.2 bound b hb).1 (hiff.2 hrep)
  exact hF.oneWord

/-- **When `isValid` decides the representation invariant**: the walk is safe, a
represented forest has one word, and a forest that is in order otherwise lists no root
twice and maps no other labels. -/
theorem isValid_decides_iff (h32 : ∀ p x, s.terminalToLabel p = some x → x < 2 ^ 32)
    (hkeys : ∀ p, p ∈ keys ↔ (s.terminalToLabel p).isSome) :
    Decides keys s ↔ SafeWalk s ∧ (RepresentationInvariant s → OneWord s) ∧
      ((∃ F, Passes s F) → s.roots.Nodup ∧ NoOtherLabels s) := by
  obtain ⟨-, hends, hvalue⟩ := isValid_spec h32 hkeys
  constructor
  · intro h
    refine ⟨h.safeWalk h32 hkeys, h.oneWord h32 hkeys, fun hpass => ?_⟩
    obtain ⟨bound, hbound⟩ := h
    obtain ⟨b, hb, hiff⟩ := hbound bound le_rfl
    obtain ⟨F, hF⟩ := hiff.1 ((hvalue bound b hb).2 hpass)
    exact hF.nodup_roots
  · rintro ⟨hwalk, hone, hnodup⟩
    obtain ⟨bound, hbound⟩ := hends hwalk
    refine ⟨bound, fun fuel hfuel => ?_⟩
    obtain ⟨b, hb⟩ := hbound fuel hfuel
    refine ⟨b, hb, (hvalue fuel b hb).trans ⟨fun hpass => ?_, fun hrep => ?_⟩⟩
    · obtain ⟨F, hF⟩ := id hpass
      obtain ⟨hroots, hlabels⟩ := hnodup hpass
      exact ⟨F, hF.represents hroots hlabels⟩
    · obtain ⟨F, hF⟩ := id hrep
      exact ⟨F, hF.passes (hone hrep)⟩

/-- The terminals of a cherry in memory. -/
theorem cherry_terminals {width : ℕ} {a b : ℕ} (h : Forest.Fresh width s [.node 0 (.leaf 1 a ∅) (.leaf 2 b ∅)]) :
    (∀ p x, s.terminalToLabel p = some x → x = a ∨ x = b) ∧ ∀ p, p ∈ [1, 2] ↔ (s.terminalToLabel p).isSome := by
  have hmap : ∀ p x, s.terminalToLabel p = some x ↔ p = 1 ∧ x = a ∨ p = 2 ∧ x = b := fun p x => by
    rw [h.mapped.terminalToLabel]
    simp [Forest.mem_subtrees, Tree.subtrees, exists_or]
  refine ⟨fun p x hx => ((hmap p x).1 hx).imp And.right And.right, fun p => ?_⟩
  rw [Option.isSome_iff_exists]
  simp only [hmap]
  simp [exists_or]

/-- The memory of the cherry over `1` and `2`. -/
theorem isValid_decides_iff_cherry :
    Decides [1, 2] (Forest.toStore 1 [.node 0 (.leaf 1 1 ∅) (.leaf 2 2 ∅)]) ↔
      SafeWalk (Forest.toStore 1 [.node 0 (.leaf 1 1 ∅) (.leaf 2 2 ∅)]) ∧
      (RepresentationInvariant (Forest.toStore 1 [.node 0 (.leaf 1 1 ∅) (.leaf 2 2 ∅)]) →
        OneWord (Forest.toStore 1 [.node 0 (.leaf 1 1 ∅) (.leaf 2 2 ∅)])) ∧
      ((∃ F, Passes (Forest.toStore 1 [.node 0 (.leaf 1 1 ∅) (.leaf 2 2 ∅)]) F) →
        (Forest.toStore 1 [.node 0 (.leaf 1 1 ∅) (.leaf 2 2 ∅)]).roots.Nodup ∧
          NoOtherLabels (Forest.toStore 1 [.node 0 (.leaf 1 1 ∅) (.leaf 2 2 ∅)])) := by
  have hfresh : Forest.Fresh 1 (Forest.toStore 1 [.node 0 (.leaf 1 1 ∅) (.leaf 2 2 ∅)])
      [.node 0 (.leaf 1 1 ∅) (.leaf 2 2 ∅)] := Forest.toStore_fresh (by decide) (by decide) (by decide)
  obtain ⟨hlabels, hkeys⟩ := cherry_terminals hfresh
  refine isValid_decides_iff (fun p x hx => ?_) hkeys
  rcases hlabels p x hx with rfl | rfl <;> norm_num

/-- **A tree over `1` and `65`**: it is read into two words, and `isValid` is wrong. -/
theorem isValid_not_decides : ¬∀ (s : Store) (keys : List Ptr), (∀ p x, s.terminalToLabel p = some x → x < 2 ^ 32) →
    (∀ p, p ∈ keys ↔ (s.terminalToLabel p).isSome) → Decides keys s := by
  intro h
  have hfresh : Forest.Fresh 2 (Forest.toStore 2 [.node 0 (.leaf 1 1 ∅) (.leaf 2 65 ∅)])
      [.node 0 (.leaf 1 1 ∅) (.leaf 2 65 ∅)] := Forest.toStore_fresh (by decide) (by decide) (by decide)
  obtain ⟨hlabels, hkeys⟩ := cherry_terminals hfresh
  have h32 : ∀ p x, (Forest.toStore 2 [.node 0 (.leaf 1 1 ∅) (.leaf 2 65 ∅)]).terminalToLabel p = some x →
      x < 2 ^ 32 := by
    intro p x hx
    rcases hlabels p x hx with rfl | rfl <;> norm_num
  have hone := (h _ _ h32 hkeys).oneWord h32 hkeys ⟨_, represents_of_fresh hfresh⟩
  exact absurd (hone 0 (.root (List.mem_singleton_self 0))) (by decide)

end Invariant

end Maf.Graph
