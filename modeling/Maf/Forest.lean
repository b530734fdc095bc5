/-
# Valid forests and how to walk in them

`src/Graph/Forest.cpp` and `src/Graph/Node.cpp`.  A forest is valid
(`Forest::isValid`) when its terminals carry different labels, the labels start
at `1`, a collapsed terminal carries its smallest label, the left of two children
and the earlier of two trees hold the smaller label, and all nodes have
different addresses (`Forest.Valid`).

`parent`, `sibling`, `rootOf` and the two maps between labels and terminals are
read off the forest.  In a valid forest they return what the pointers of the
source point to (`parent_eq_some_iff`, `sibling_eq_some_iff`,
`labelToTerminal_eq_some_iff`).
-/

import Maf.Tree

namespace Maf
namespace Tree

/-- `smallestTerminal`. -/
def least : Tree → Label
  | leaf _ l _ => l
  | node _ l r => min l.least r.least

/-- The least label of a leaf is its own. -/
@[simp] theorem least_leaf (p : Ptr) (l : Label) (m : Finset Label) : (leaf p l m).least = l := rfl
/-- The least label of a node is that of one of its children. -/
@[simp] theorem least_node (p : Ptr) (l r : Tree) :
    (node p l r).least = min l.least r.least := rfl

/-- What `isValid` checks of a tree, apart from its addresses. -/
def Valid : Tree → Prop
  | leaf _ l m => 0 < l ∧ ∀ x ∈ m, l < x
  | node _ l r => l.Valid ∧ r.Valid ∧ Disjoint l.subtreeTerminals r.subtreeTerminals ∧
      l.least < r.least

instance decidableValid : (t : Tree) → Decidable t.Valid
  | leaf _ l m => inferInstanceAs (Decidable (0 < l ∧ ∀ x ∈ m, l < x))
  | node _ l r =>
      have := decidableValid l
      have := decidableValid r
      inferInstanceAs (Decidable (_ ∧ _ ∧ _ ∧ _))

/-- A leaf is valid when its labels are positive and it has the least of them. -/
@[simp] theorem valid_leaf {p : Ptr} {l : Label} {m : Finset Label} :
    (leaf p l m).Valid ↔ 0 < l ∧ ∀ x ∈ m, l < x := Iff.rfl

/-- A node is valid when its children are, share no terminal and are sorted. -/
@[simp] theorem valid_node {p : Ptr} {l r : Tree} : (node p l r).Valid ↔
    l.Valid ∧ r.Valid ∧ Disjoint l.subtreeTerminals r.subtreeTerminals ∧ l.least < r.least := Iff.rfl

/-- Labels are terminals. -/
theorem labels_subset_subtreeTerminals (t : Tree) : t.labels ⊆ t.subtreeTerminals := by
  induction t with
  | leaf p l m => simp
  | node p l r ihl ihr => exact Finset.union_subset_union ihl ihr

/-- Without collapsed leaves the terminals are the labels. -/
theorem subtreeTerminals_eq_labels {t : Tree} (h : ∀ p x m, leaf p x m ∈ t.subtrees → m = ∅) :
    t.subtreeTerminals = t.labels := by
  induction t with
  | leaf p x m => rw [subtreeTerminals, labels, h p x m (mem_subtrees_self _), insert_empty_eq]
  | node p l r ihl ihr =>
      rw [subtreeTerminals, labels, ihl fun q x m hm => h q x m (mem_subtrees_node.2 (Or.inr (Or.inl hm))),
        ihr fun q x m hm => h q x m (mem_subtrees_node.2 (Or.inr (Or.inr hm)))]

/-- The least label is a label. -/
theorem least_mem_labels (t : Tree) : t.least ∈ t.labels := by
  induction t with
  | leaf p l m => simp
  | node p l r ihl ihr =>
      simp only [least_node, labels, Finset.mem_union]
      rcases le_total l.least r.least with h | h
      · rw [min_eq_left h]; exact Or.inl ihl
      · rw [min_eq_right h]; exact Or.inr ihr

/-- In a valid tree no label is there twice. -/
theorem Valid.distinct {t : Tree} (h : t.Valid) : t.Distinct := by
  induction t with
  | leaf p l m => trivial
  | node p l r ihl ihr =>
      obtain ⟨hl, hr, hd, -⟩ := h
      exact ⟨ihl hl, ihr hr,
        hd.mono (labels_subset_subtreeTerminals l) (labels_subset_subtreeTerminals r)⟩

/-- No terminal is less than the least label. -/
theorem Valid.least_le {t : Tree} (h : t.Valid) {x : Label} (hx : x ∈ t.subtreeTerminals) :
    t.least ≤ x := by
  induction t with
  | leaf p l m =>
      rcases Finset.mem_insert.1 hx with rfl | hx
      · exact le_rfl
      · exact (h.2 x hx).le
  | node p l r ihl ihr =>
      obtain ⟨hl, hr, -, -⟩ := h
      rcases Finset.mem_union.1 hx with hx | hx
      · exact (min_le_left _ _).trans (ihl hl hx)
      · exact (min_le_right _ _).trans (ihr hr hx)

/-- Labels are positive. -/
theorem Valid.pos {t : Tree} (h : t.Valid) : 0 < t.least := by
  induction t with
  | leaf p l m => exact h.1
  | node p l r ihl ihr => exact lt_min (ihl h.1) (ihr h.2.1)

/-- The subtrees of a valid tree are valid. -/
theorem Valid.of_mem_subtrees {s t : Tree} (ht : t.Valid) (h : s ∈ t.subtrees) : s.Valid := by
  induction t with
  | leaf p l m => rwa [List.mem_singleton.1 h]
  | node p l r ihl ihr =>
      rcases mem_subtrees_node.1 h with rfl | h | h
      · exact ht
      · exact ihl ht.1 h
      · exact ihr ht.2.1 h

/-- The terminals of a subtree are terminals of the tree. -/
theorem subtreeTerminals_subset_of_mem_subtrees {s t : Tree} (h : s ∈ t.subtrees) :
    s.subtreeTerminals ⊆ t.subtreeTerminals := by
  induction t with
  | leaf p l m => rw [List.mem_singleton.1 h]
  | node p l r ihl ihr =>
      rcases mem_subtrees_node.1 h with rfl | h | h
      · exact Finset.Subset.refl _
      · exact (ihl h).trans Finset.subset_union_left
      · exact (ihr h).trans Finset.subset_union_right

/-- A label below the node belongs to one of its terminals. -/
theorem exists_terminal {t : Tree} {x : Label} (h : x ∈ t.subtreeTerminals) :
    ∃ s ∈ t.subtrees, s.isTerminal = true ∧ x ∈ s.subtreeTerminals := by
  induction t with
  | leaf p l m => exact ⟨_, mem_subtrees_self _, rfl, h⟩
  | node p l r ihl ihr =>
      rcases Finset.mem_union.1 h with h | h
      · obtain ⟨s, hs, hx⟩ := ihl h
        exact ⟨s, mem_subtrees_node.2 (Or.inr (Or.inl hs)), hx⟩
      · obtain ⟨s, hs, hx⟩ := ihr h
        exact ⟨s, mem_subtrees_node.2 (Or.inr (Or.inr hs)), hx⟩

/-- Subtrees of a valid tree are nested when they share a label. -/
theorem Valid.nested {t s u : Tree} (ht : t.Valid) (hs : s ∈ t.subtrees) (hu : u ∈ t.subtrees)
    {x : Label} (hx : x ∈ s.subtreeTerminals) (hx' : x ∈ u.subtreeTerminals) :
    s ∈ u.subtrees ∨ u ∈ s.subtrees := by
  induction t with
  | leaf p l m => rw [List.mem_singleton.1 hs, List.mem_singleton.1 hu]; simp [mem_subtrees_self]
  | node p l r ihl ihr =>
      obtain ⟨hl, hr, hd, -⟩ := ht
      rcases mem_subtrees_node.1 hs with rfl | hs'
      · exact Or.inr hu
      rcases mem_subtrees_node.1 hu with rfl | hu'
      · exact Or.inl hs
      have cross : ∀ {a b : Tree}, a ∈ l.subtrees → b ∈ r.subtrees → x ∈ a.subtreeTerminals →
          x ∉ b.subtreeTerminals := fun ha hb hxa hxb => Finset.disjoint_left.1 hd
        (subtreeTerminals_subset_of_mem_subtrees ha hxa)
        (subtreeTerminals_subset_of_mem_subtrees hb hxb)
      rcases hs' with hs | hs <;> rcases hu' with hu | hu
      · exact ihl hl hs hu
      · exact absurd hx' (cross hs hu hx)
      · exact absurd hx (cross hu hs hx')
      · exact ihr hr hs hu

/-- `s` has the child `n`. -/
def HasChild (n : Tree) : Tree → Prop
  | leaf .. => False
  | node _ l r => l = n ∨ r = n

instance (n : Tree) : DecidablePred (HasChild n)
  | leaf .. => inferInstanceAs (Decidable False)
  | node _ l r => inferInstanceAs (Decidable (l = n ∨ r = n))

/-- What it means to be a child. -/
theorem hasChild_iff {n s : Tree} : HasChild n s ↔ ∃ p l r, s = node p l r ∧ (l = n ∨ r = n) := by
  cases s with
  | leaf p l m => exact ⟨False.elim, fun ⟨_, _, _, h, _⟩ => by cases h⟩
  | node p l r =>
      refine ⟨fun h => ⟨p, l, r, rfl, h⟩, ?_⟩
      rintro ⟨p', l', r', h, hn⟩
      cases h
      exact hn

/-- The other child. -/
def otherChild (n : Tree) : Tree → Option Tree
  | leaf .. => none
  | node _ l r => if l = n then some r else some l

/-- The label of a terminal in `TerminalToLabel`. -/
def terminalToLabel : Tree → Option Label
  | leaf _ l _ => some l
  | node .. => none

/-- Leaves have a label, and nothing else has. -/
theorem terminalToLabel_eq_some {t : Tree} {x : Label} :
    t.terminalToLabel = some x ↔ ∃ p m, t = leaf p x m := by
  cases t with
  | leaf p l m => simp [terminalToLabel]
  | node p l r => simp [terminalToLabel]

end Tree

namespace Forest

/-- `isValid`. -/
structure Valid (F : Forest) : Prop where
  tree : ∀ t ∈ F, t.Valid
  disjoint : F.Pairwise fun t u => Disjoint t.subtreeTerminals u.subtreeTerminals
  sorted : F.Pairwise fun t u => t.least < u.least
  nodup : F.ptrs.Nodup

instance (F : Forest) : Decidable F.Valid :=
  decidable_of_iff ((∀ t ∈ F, t.Valid) ∧
    F.Pairwise (fun t u => Disjoint t.subtreeTerminals u.subtreeTerminals) ∧
    F.Pairwise (fun t u => t.least < u.least) ∧ F.ptrs.Nodup)
    ⟨fun ⟨h₁, h₂, h₃, h₄⟩ => ⟨h₁, h₂, h₃, h₄⟩, fun ⟨h₁, h₂, h₃, h₄⟩ => ⟨h₁, h₂, h₃, h₄⟩⟩

/-- Distinct trees without common labels are a distinct forest. -/
theorem distinct_of_pairwise {F : Forest} (h : ∀ t ∈ F, t.Distinct)
    (hd : F.Pairwise fun t u => Disjoint t.labels u.labels) : F.Distinct := by
  induction F with
  | nil => trivial
  | cons t F ih =>
      rw [List.pairwise_cons] at hd
      refine ⟨h t (by simp), ih (fun u hu => h u (by simp [hu])) hd.2, ?_⟩
      refine Finset.disjoint_left.2 fun x hx hxF => ?_
      obtain ⟨u, hu, hxu⟩ := mem_labels.1 hxF
      exact Finset.disjoint_left.1 (hd.1 u hu) hx hxu

/-- In a valid forest no label is there twice. -/
theorem Valid.distinct {F : Forest} (h : F.Valid) : F.Distinct :=
  distinct_of_pairwise (fun t ht => (h.tree t ht).distinct) (h.disjoint.imp fun hd =>
    hd.mono (Tree.labels_subset_subtreeTerminals _) (Tree.labels_subset_subtreeTerminals _))

/-- The subtrees of a valid forest are valid. -/
theorem Valid.of_mem_subtrees {F : Forest} (h : F.Valid) {s : Tree} (hs : s ∈ F.subtrees) :
    s.Valid := by
  obtain ⟨t, ht, hs⟩ := mem_subtrees.1 hs
  exact (h.tree t ht).of_mem_subtrees hs

/-- The labels of a valid forest are positive. -/
theorem Valid.label_pos {F : Forest} (h : F.Valid) {x : Label} (hx : x ∈ F.labels) : 0 < x := by
  obtain ⟨t, ht, hx⟩ := mem_labels.1 hx
  exact (h.tree t ht).pos.trans_le
    ((h.tree t ht).least_le (Tree.labels_subset_subtreeTerminals t hx))

/-- A label lies in one tree only. -/
theorem Valid.eq_of_mem {F : Forest} (h : F.Valid) {t u : Tree} (ht : t ∈ F) (hu : u ∈ F) {x : Label}
    (hx : x ∈ t.subtreeTerminals) (hx' : x ∈ u.subtreeTerminals) : t = u := by
  have hd := h.disjoint
  clear h
  induction F with
  | nil => cases ht
  | cons v F ih =>
      rw [List.pairwise_cons] at hd
      rcases List.mem_cons.1 ht with rfl | htF <;> rcases List.mem_cons.1 hu with huF | huF
      · exact huF.symm
      · exact absurd hx' (Finset.disjoint_left.1 (hd.1 u huF) hx)
      · exact absurd hx (Finset.disjoint_left.1 (hd.1 t htF) (huF ▸ hx'))
      · exact ih htF huF hd.2

/-- Two subtrees with a common terminal are nested. -/
theorem Valid.nested {F : Forest} (h : F.Valid) {s u : Tree} (hs : s ∈ F.subtrees)
    (hu : u ∈ F.subtrees) {x : Label} (hx : x ∈ s.subtreeTerminals) (hx' : x ∈ u.subtreeTerminals) :
    s ∈ u.subtrees ∨ u ∈ s.subtrees := by
  obtain ⟨t, ht, hs⟩ := mem_subtrees.1 hs
  obtain ⟨t', ht', hu⟩ := mem_subtrees.1 hu
  obtain rfl := h.eq_of_mem ht ht' (Tree.subtreeTerminals_subset_of_mem_subtrees hs hx)
    (Tree.subtreeTerminals_subset_of_mem_subtrees hu hx')
  exact (h.tree t ht).nested hs hu hx hx'

/-- `parent` of a node; `none` for a root. -/
def parent (F : Forest) (n : Tree) : Option Tree := F.subtrees.find? fun s => decide (Tree.HasChild n s)

/-- `sibling` of a node; `none` for a root. -/
def sibling (F : Forest) (n : Tree) : Option Tree := (F.parent n).bind (Tree.otherChild n)

/-- `LabelToTerminal`. -/
def labelToTerminal (F : Forest) (x : Label) : Option Tree :=
  F.subtrees.find? fun s => s.isTerminal && decide (x ∈ s.subtreeTerminals)

/-- The node at an address. -/
def nodeAt (F : Forest) (p : Ptr) : Option Tree := F.subtrees.find? fun s => decide (s.ptr = p)

/-- The node at the address of a subtree is the subtree. -/
theorem nodeAt_ptr {F : Forest} (hF : F.ptrs.Nodup) {n : Tree} (hn : n ∈ F.subtrees) : F.nodeAt n.ptr = some n := by
  cases h : F.nodeAt n.ptr with
  | none => simpa using List.find?_eq_none.1 h n hn
  | some u =>
      have hu : u ∈ F.subtrees := List.mem_of_find?_eq_some h
      have hptr : u.ptr = n.ptr := by simpa using List.find?_some h
      rw [eq_of_ptr_eq hF hu hn hptr]

/-- `rootOf`: the first root whose terminals include those of the node. -/
def rootOf (F : Forest) (n : Tree) : Option Tree :=
  F.find? fun t => decide (n.subtreeTerminals ⊆ t.subtreeTerminals)

section Walk

variable {F : Forest}

/-- Two nodes with a common child are one. -/
theorem eq_of_hasChild (hF : F.Distinct) {n s u : Tree} (hs : s ∈ F.subtrees) (hu : u ∈ F.subtrees)
    (hn : Tree.HasChild n s) (hn' : Tree.HasChild n u) : s = u := by
  obtain ⟨p, l, r, rfl, hc⟩ := Tree.hasChild_iff.1 hn
  obtain ⟨p', l', r', rfl, hc'⟩ := Tree.hasChild_iff.1 hn'
  have sub : ∀ {p l r}, (l = n ∨ r = n) → n.labels ⊆ (Tree.node p l r).labels := by
    rintro p l r (rfl | rfl)
    · exact Finset.subset_union_left
    · exact Finset.subset_union_right
  have ne : ∀ {p l r}, Tree.node p l r ∈ F.subtrees → (l = n ∨ r = n) → Tree.node p l r ≠ n := by
    rintro p l r hmem (rfl | rfl) he
    · have := congrArg sizeOf he
      simp only [Tree.node.sizeOf_spec] at this
      omega
    · have := congrArg sizeOf he
      simp only [Tree.node.sizeOf_spec] at this
      omega
  have h₁ := (eq_or_subset_of_child hF hs (hc.imp Eq.symm Eq.symm) hu (sub hc')).resolve_left
    (ne hu hc')
  have h₂ := (eq_or_subset_of_child hF hu (hc'.imp Eq.symm Eq.symm) hs (sub hc)).resolve_left
    (ne hs hc)
  exact eq_of_labels_eq hF hs hu (h₁.antisymm h₂)

/-- The parent of a node has it as a child. -/
theorem parent_eq_some_iff (hF : F.Distinct) {n s : Tree} :
    F.parent n = some s ↔ s ∈ F.subtrees ∧ Tree.HasChild n s := by
  constructor
  · intro h
    exact ⟨List.mem_of_find?_eq_some h, by simpa using List.find?_some h⟩
  · rintro ⟨hs, hn⟩
    cases h : F.parent n with
    | none => exact absurd hn (by simpa using List.find?_eq_none.1 h s hs)
    | some u =>
        have hu : u ∈ F.subtrees := List.mem_of_find?_eq_some h
        have hun : Tree.HasChild n u := by simpa using List.find?_some h
        rw [eq_of_hasChild hF hs hu hn hun]

/-- The parent has more nodes below. -/
theorem length_subtrees_lt_parent (hF : F.Distinct) {u p : Tree} (hp : F.parent u = some p) :
    u.subtrees.length < p.subtrees.length := by
  obtain ⟨q, l, r, rfl, hlr⟩ := Tree.hasChild_iff.1 ((parent_eq_some_iff hF).1 hp).2
  simp only [Tree.subtrees, List.length_cons, List.length_append]
  rcases hlr with rfl | rfl <;> omega

/-- A node without a parent is nobody's child. -/
theorem parent_eq_none_iff {n : Tree} :
    F.parent n = none ↔ ∀ s ∈ F.subtrees, ¬Tree.HasChild n s := by
  simp [parent, List.find?_eq_none]

/-- Siblings are the two children of a node. -/
theorem sibling_eq_some_iff (hF : F.Distinct) {n s : Tree} :
    F.sibling n = some s ↔
      ∃ p, Tree.node p n s ∈ F.subtrees ∨ Tree.node p s n ∈ F.subtrees := by
  constructor
  · intro h
    obtain ⟨u, hu, hs⟩ := Option.bind_eq_some_iff.1 h
    obtain ⟨hmem, hn⟩ := (parent_eq_some_iff hF).1 hu
    obtain ⟨p, l, r, rfl, hc⟩ := Tree.hasChild_iff.1 hn
    dsimp only [Tree.otherChild] at hs
    split_ifs at hs with hl
    · obtain rfl := Option.some.inj hs
      exact ⟨p, Or.inl (hl ▸ hmem)⟩
    · obtain rfl := Option.some.inj hs
      obtain rfl := hc.resolve_left hl
      exact ⟨p, Or.inr hmem⟩
  · rintro ⟨p, h | h⟩
    · refine Option.bind_eq_some_iff.2 ⟨_, (parent_eq_some_iff hF).2 ⟨h, Or.inl rfl⟩, ?_⟩
      simp [Tree.otherChild]
    · refine Option.bind_eq_some_iff.2 ⟨_, (parent_eq_some_iff hF).2 ⟨h, Or.inr rfl⟩, ?_⟩
      have hne : s ≠ n := by
        rintro rfl
        obtain ⟨x, hx⟩ := s.labels_nonempty
        exact Finset.disjoint_left.1 (hF.of_mem_subtrees h).2.2 hx hx
      simp [Tree.otherChild, hne]

/-- A root has no parent. -/
theorem parent_eq_none_of_mem (hF : F.Distinct) {n : Tree} (hn : n ∈ F) : F.parent n = none := by
  rw [parent_eq_none_iff]
  intro s hs hc
  obtain ⟨p, l, r, rfl, hlr⟩ := Tree.hasChild_iff.1 hc
  obtain ⟨t, ht, hst⟩ := mem_subtrees.1 hs
  obtain ⟨x, hx⟩ := n.labels_nonempty
  have hsub : n.labels ⊆ (Tree.node p l r).labels := by
    rcases hlr with rfl | rfl
    · exact Finset.subset_union_left
    · exact Finset.subset_union_right
  obtain rfl := hF.eq_of_mem hn ht hx (Tree.labels_subset_of_mem_subtrees hst (hsub hx))
  refine Tree.not_labels_subset_child (hF.of_mem_subtrees hs) (s := n) ?_
    (Tree.labels_subset_of_mem_subtrees hst)
  rcases hlr with rfl | rfl
  · exact Or.inl (Tree.mem_subtrees_self _)
  · exact Or.inr (Tree.mem_subtrees_self _)

/-- Siblings have the same parent, whose labels are theirs. -/
theorem exists_of_sibling (hF : F.Distinct) {n m : Tree} (h : F.sibling n = some m) :
    ∃ s, F.parent n = some s ∧ F.parent m = some s ∧ s ∈ F.subtrees ∧ n ∈ F.subtrees ∧
      m ∈ F.subtrees ∧ s.labels = n.labels ∪ m.labels ∧ Disjoint n.labels m.labels := by
  obtain ⟨p, hp | hp⟩ := (sibling_eq_some_iff hF).1 h
  · obtain ⟨hn, hm⟩ := mem_subtrees_children hp
    exact ⟨_, (parent_eq_some_iff hF).2 ⟨hp, Or.inl rfl⟩, (parent_eq_some_iff hF).2 ⟨hp, Or.inr rfl⟩, hp,
      hn, hm, rfl, (hF.of_mem_subtrees hp).2.2⟩
  · obtain ⟨hm, hn⟩ := mem_subtrees_children hp
    exact ⟨_, (parent_eq_some_iff hF).2 ⟨hp, Or.inr rfl⟩, (parent_eq_some_iff hF).2 ⟨hp, Or.inl rfl⟩, hp,
      hn, hm, Finset.union_comm _ _, (hF.of_mem_subtrees hp).2.2.symm⟩

/-- A terminal is found under each of its labels. -/
theorem labelToTerminal_eq_some_iff (hF : F.Valid) {x : Label} {n : Tree} :
    F.labelToTerminal x = some n ↔
      n ∈ F.subtrees ∧ n.isTerminal = true ∧ x ∈ n.subtreeTerminals := by
  constructor
  · intro h
    have hp := List.find?_some h
    simp only [Bool.and_eq_true, decide_eq_true_eq] at hp
    exact ⟨List.mem_of_find?_eq_some h, hp⟩
  · rintro ⟨hn, hterm, hx⟩
    cases h : F.labelToTerminal x with
    | none => exact absurd (List.find?_eq_none.1 h n hn) (by simp [hterm, hx])
    | some u =>
        have hu : u ∈ F.subtrees := List.mem_of_find?_eq_some h
        have hp := List.find?_some h
        simp only [Bool.and_eq_true, decide_eq_true_eq] at hp
        have leaf_eq : ∀ {s t : Tree}, t.isTerminal = true → s ∈ t.subtrees → s = t := by
          intro s t ht hs
          cases t with
          | leaf => exact List.mem_singleton.1 hs
          | node => cases ht
        rcases hF.nested hn hu hx hp.2 with hnu | hun
        · rw [leaf_eq hp.1 hnu]
        · rw [leaf_eq hterm hun]

/-- The terminal that carries the label `x` in `TerminalToLabel`. -/
theorem labelToTerminal_leaf (hF : F.Valid) {p : Ptr} {x : Label} {m : Finset Label}
    (h : Tree.leaf p x m ∈ F.subtrees) : F.labelToTerminal x = some (.leaf p x m) :=
  (labelToTerminal_eq_some_iff hF).2 ⟨h, rfl, by simp⟩

/-- Every label of a valid forest has a terminal. -/
theorem exists_labelToTerminal (hF : F.Valid) {x : Label} (hx : x ∈ F.labels) :
    ∃ p m, F.labelToTerminal x = some (.leaf p x m) ∧ Tree.leaf p x m ∈ F.subtrees := by
  obtain ⟨p, m, h⟩ := exists_leaf hx
  exact ⟨p, m, labelToTerminal_leaf hF h, h⟩

/-- Only the terminal of the label `x` has the label set `{x}`. -/
theorem eq_leaf_of_labels {s : Tree} {x : Label} (h : s.labels = {x}) (hs : s.Distinct) :
    ∃ p m, s = .leaf p x m := by
  cases s with
  | leaf p l m =>
      obtain rfl := Finset.singleton_inj.1 h
      exact ⟨p, m, rfl⟩
  | node p l r =>
      have hl : l.labels ⊆ {x} := h ▸ Finset.subset_union_left
      have hr : r.labels ⊆ {x} := h ▸ Finset.subset_union_right
      obtain ⟨y, hy⟩ := l.labels_nonempty
      obtain ⟨z, hz⟩ := r.labels_nonempty
      obtain rfl := Finset.mem_singleton.1 (hl hy)
      obtain rfl := Finset.mem_singleton.1 (hr hz)
      exact absurd hz (Finset.disjoint_left.1 hs.2.2 hy)

end Walk

end Forest
end Maf
