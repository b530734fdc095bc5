/-
# Subtree reduction

`src/Solver/Rule/SubtreeReductionRule.cpp` looks for the maximal common subtrees of all
forests.  A queue holds tuples of identical subtrees, one node of every forest, at first
the terminals.  A tuple is replaced by its parents when the siblings are identical, is
maximal when they cannot be, and goes to the end of the queue while nothing is known about
them.

Each round keeps an invariant about the subtrees of the first forest that were queued
(`Search.Inv`), and some tuple of the queue does not wait (`Search.Inv.exists_decided`), so
the queue empties (`run_spec`) and the maximal common subtrees are left
(`isApplicable_maximalSubtrees`).

The order in which the keys of `LabelToTerminal` are iterated is a parameter.  The
recursion of `addAncestorSeenDiffNodes` and the loop over the queue have fuel.
-/

import Maf.Cluster.ClusterPointGenerator

namespace Maf.SubtreeReductionRule

open Forest (Fits IsCommon IsMaximalCommon SameTerminals)
open Cluster (Node IsNode)

/-- `parent` of a node. -/
def parentOf (forests : List Forest) (n : Node) : Option Node :=
  (forests[n.1]?).bind fun f => (f.parent n.2).map fun p => (n.1, p)

/-- `sibling` of a node. -/
def siblingOf (forests : List Forest) (n : Node) : Option Node :=
  (forests[n.1]?).bind fun f => (f.sibling n.2).map fun s => (n.1, s)

/-- The loop of `addAncestorSeenDiffNodes`: the parents that were not seen, and
`seenNodes_diff` with them. -/
def unseenParents (forests : List Forest) : List Node → Finset Node → List Node × Finset Node
  | [], seen => ([], seen)
  | node :: nodes, seen =>
      match parentOf forests node with
      | none => unseenParents forests nodes seen
      | some parent =>
          if parent ∈ seen then unseenParents forests nodes seen
          else
            let (parents, seen) := unseenParents forests nodes (insert parent seen)
            (parent :: parents, seen)

/-- `addAncestorSeenDiffNodes`. -/
def addAncestorSeenDiffNodes (forests : List Forest) : ℕ → List Node → Finset Node → Option (Finset Node)
  | 0, _, _ => none
  | fuel + 1, nodes, seen =>
      let (parents, seen) := unseenParents forests nodes seen
      if parents.isEmpty then some seen else addAncestorSeenDiffNodes forests fuel parents seen

/-- The variables of the search. -/
structure Search where
  /-- `identicalSubtreeRoots` -/
  queue : List (List Node)
  /-- `maximumSubtree` -/
  maximum : List (List Node)
  /-- `seenNodes_identical` -/
  identical : Finset Node
  /-- `seenNodes_diff` -/
  diff : Finset Node

/-- The inner loop over the forests, from the forest `i` on: `terminalsForLabel`. -/
def terminalsForLabel (label : Label) : ℕ → List Forest → Finset Node → Option (List Node × Finset Node)
  | _, [], seen => some ([], seen)
  | i, f :: forests, seen => do
      let terminal ← f.labelToTerminal label
      if (i, terminal) ∈ seen then some ([], seen)
      else do
        let (terminals, seen) ← terminalsForLabel label (i + 1) forests (insert (i, terminal) seen)
        some ((i, terminal) :: terminals, seen)

/-- The body of the loop over the labels. -/
def pushTerminals (forests : List Forest) (s : Search) (label : Label) : Option Search := do
  let (terminals, seen) ← terminalsForLabel label 0 forests s.identical
  some { s with queue := if terminals.isEmpty then s.queue else s.queue ++ [terminals], identical := seen }

/-- The queue of the terminals. -/
def fill (forests : List Forest) (labels : List Label) : Option Search :=
  labels.foldlM (pushTerminals forests) ⟨[], [], ∅, ∅⟩

/-- The tuple is maximal. -/
def pushMaximum (forests : List Forest) (depth : ℕ) (current : List Node) (s : Search) : Option Search := do
  let diff ← addAncestorSeenDiffNodes forests depth current s.diff
  some { s with maximum := s.maximum ++ [current], diff := diff }

/-- The body of the loop over the queue. -/
def visit (width : ℕ) (forests : List Forest) (depth : ℕ) (current : List Node) (s : Search) : Option Search :=
  if current.any fun n => (parentOf forests n).isNone then pushMaximum forests depth current s
  else do
    let siblings ← current.mapM (siblingOf forests)
    if siblings.all fun n => decide (n ∈ s.identical) then do
      let compareSibling ← siblings.head?
      if siblings.all fun n => compareSibling.2.hasSameTerminals width n.2 then do
        let parents ← current.mapM (parentOf forests)
        let parent ← parents.head?
        if parent ∈ s.identical then some s
        else some { s with queue := s.queue ++ [parents], identical := s.identical ∪ parents.toFinset }
      else pushMaximum forests depth current s
    else if siblings.all fun n => decide (n ∉ s.identical) then
      if siblings.all fun n => decide (n ∉ s.diff) then some { s with queue := s.queue ++ [current] }
      else pushMaximum forests depth current s
    else pushMaximum forests depth current s

/-- The loop over the queue. -/
def run (width : ℕ) (forests : List Forest) (depth : ℕ) : ℕ → Search → Option Search
  | 0, _ => none
  | fuel + 1, s =>
      match s.queue with
      | [] => some s
      | current :: queue => (visit width forests depth current { s with queue := queue }).bind
          (run width forests depth fuel)

/-- `allSubtreesOfForest`: the nodes of the forest `i` that are not terminals. -/
def subtreesOfForest (maximum : List (List Node)) (i : ℕ) : Option (List Tree) := do
  let nodes ← maximum.mapM fun identicalSubtrees => identicalSubtrees[i]?
  some ((nodes.map Prod.snd).filter fun n => !n.isTerminal)

/-- **`SubtreeReductionRule::isApplicable`**: `forestToSubtrees`, a list for each forest,
or `none` for a null pointer. -/
def isApplicable (width fuel : ℕ) (labels : List Label) (forests : List Forest) :
    Option (Option (List (ℕ × List Tree))) :=
  if forests.length ≤ 1 then some none
  else do
    let s ← fill forests labels
    let s ← run width forests fuel fuel s
    if s.maximum.isEmpty then some none
    else do
      let lists ← (List.range forests.length).mapM fun i => (subtreesOfForest s.maximum i).map fun l => (i, l)
      let forestToSubtrees := lists.filter fun p => !p.2.isEmpty
      if forestToSubtrees.isEmpty then some none else some (some forestToSubtrees)

/-- Two or more forests with the same terminals. -/
structure IsInstance (width : ℕ) (forests : List Forest) : Prop where
  two : 2 ≤ forests.length
  fits : ∀ F ∈ forests, F.Fits width
  same : ∀ F ∈ forests, ∀ G ∈ forests, F.SameTerminals G

/-- The node is identical to the subtree. -/
def Occurs (forests : List Forest) (v : Tree) (n : Node) : Prop :=
  ∃ G, forests[n.1]? = some G ∧ n.2 ∈ G.subtrees ∧ v.Identical n.2

/-- The tuple has a node of each forest, all of them identical to the subtree. -/
structure IsTuple (forests : List Forest) (v : Tree) (t : List Node) : Prop where
  indices : t.map Prod.fst = List.range forests.length
  occurs : ∀ n ∈ t, Occurs forests v n

section Tuples

variable {width : ℕ} {forests : List Forest} {F : Forest} {u v : Tree} {n m q : Node} {t : List Node}

/-- The parent of a node is one in the same forest. -/
theorem parentOf_eq_some : parentOf forests n = some q ↔
    ∃ G, forests[n.1]? = some G ∧ q.1 = n.1 ∧ G.parent n.2 = some q.2 := by
  simp only [parentOf, Option.bind_eq_some_iff, Option.map_eq_some_iff]
  constructor
  · rintro ⟨G, hG, p, hp, rfl⟩
    exact ⟨G, hG, rfl, hp⟩
  · rintro ⟨G, hG, hq, hp⟩
    exact ⟨G, hG, q.2, hp, Prod.ext hq.symm rfl⟩

/-- The sibling of a node is one in the same forest. -/
theorem siblingOf_eq_some : siblingOf forests n = some q ↔
    ∃ G, forests[n.1]? = some G ∧ q.1 = n.1 ∧ G.sibling n.2 = some q.2 := by
  simp only [siblingOf, Option.bind_eq_some_iff, Option.map_eq_some_iff]
  constructor
  · rintro ⟨G, hG, p, hp, rfl⟩
    exact ⟨G, hG, rfl, hp⟩
  · rintro ⟨G, hG, hq, hp⟩
    exact ⟨G, hG, q.2, hp, Prod.ext hq.symm rfl⟩

variable (hI : IsInstance width forests) (h₀ : forests[0]? = some F)
include hI

/-- No label is there twice. -/
theorem IsInstance.distinct {G : Forest} {i : ℕ} (hG : forests[i]? = some G) : G.Distinct :=
  (hI.fits G (List.mem_of_getElem? hG)).valid.distinct

/-- A forest has one node identical to a subtree. -/
theorem Occurs.unique (hn : Occurs forests v n) (hm : Occurs forests v m) (h : n.1 = m.1) : n = m := by
  obtain ⟨G, hG, hnG, hvn⟩ := hn
  obtain ⟨H, hH, hmH, hvm⟩ := hm
  obtain rfl := Option.some.inj (hG.symm.trans (h ▸ hH))
  exact Prod.ext h (Forest.eq_of_identical (hI.distinct hG) hnG hmH (hvn.symm.trans hvm))

/-- A tuple has every occurrence of its subtree. -/
theorem IsTuple.mem_of_occurs (ht : IsTuple forests v t) (hn : Occurs forests v n) : n ∈ t := by
  obtain ⟨G, hG, -⟩ := id hn
  have hmem : n.1 ∈ t.map Prod.fst :=
    ht.indices ▸ List.mem_range.2 (List.getElem?_eq_some_iff.1 hG).1
  obtain ⟨m, hm, hmn⟩ := List.mem_map.1 hmem
  exact (ht.occurs m hm).unique hI hn hmn ▸ hm

/-- The parent of a node in its forest. -/
theorem lt_of_parentOf (h : parentOf forests n = some q) :
    IsNode forests n ∧ IsNode forests q ∧ n.2 ∈ q.2.subtrees ∧ n.2.subtrees.length < q.2.subtrees.length := by
  obtain ⟨G, hG, hq, hp⟩ := parentOf_eq_some.1 h
  have hd := hI.distinct hG
  obtain ⟨hqG, hc⟩ := (Forest.parent_eq_some_iff hd).1 hp
  have hnq : n.2 ∈ q.2.subtrees := by
    obtain ⟨p, l, r, hnode, hlr⟩ := Tree.hasChild_iff.1 hc
    rw [hnode, Tree.mem_subtrees_node]
    rcases hlr with h | h
    · exact Or.inr (Or.inl (h ▸ Tree.mem_subtrees_self _))
    · exact Or.inr (Or.inr (h ▸ Tree.mem_subtrees_self _))
  obtain ⟨T, hT, hqT⟩ := Forest.mem_subtrees.1 hqG
  exact ⟨⟨G, hG, Forest.mem_subtrees.2 ⟨T, hT, Tree.subtrees_trans hnq hqT⟩⟩, ⟨G, hq ▸ hG, hqG⟩, hnq,
    Forest.length_subtrees_lt_parent hd hp⟩

include h₀

/-- Identical subtrees of the first forest are one. -/
theorem Occurs.left_unique (hu : u ∈ F.subtrees) (hv : v ∈ F.subtrees) (hun : Occurs forests u n)
    (hvn : Occurs forests v n) : u = v := by
  obtain ⟨G, hG, -, hun⟩ := hun
  obtain ⟨-, -, -, hvn⟩ := hvn
  exact Forest.eq_of_identical (hI.distinct h₀) hu hv (hun.trans hvn.symm)

omit hI in
/-- A subtree of the first forest occurs there. -/
theorem occurs_zero (hv : v ∈ F.subtrees) : Occurs forests v (0, v) := ⟨F, h₀, hv, Tree.Identical.refl v⟩

omit hI in
/-- A tuple starts in the first forest. -/
theorem IsTuple.exists_head (ht : IsTuple forests v t) : ∃ m ts, t = m :: ts ∧ m.1 = 0 := by
  have hpos : 0 < forests.length := (List.getElem?_eq_some_iff.1 h₀).1
  cases t with
  | nil =>
      have := congrArg List.length ht.indices
      simp only [List.map_nil, List.length_nil, List.length_range] at this
      omega
  | cons m ts =>
      obtain ⟨k, hk⟩ : ∃ k, forests.length = k + 1 := ⟨forests.length - 1, by omega⟩
      have := ht.indices
      rw [hk, List.range_succ_eq_map, List.map_cons] at this
      exact ⟨m, ts, rfl, (List.cons.inj this).1⟩

/-- The first node of a tuple is the subtree of the first forest. -/
theorem IsTuple.eq_cons (hv : v ∈ F.subtrees) (ht : IsTuple forests v t) : ∃ ts, t = (0, v) :: ts := by
  obtain ⟨m, ts, rfl, hm⟩ := ht.exists_head h₀
  exact ⟨ts, by rw [(ht.occurs m (List.mem_cons_self ..)).unique hI (occurs_zero h₀ hv) hm]⟩

/-- **A common parent of one node is the parent of all nodes of the tuple**, and their
siblings are identical. -/
theorem IsTuple.common_parent (hv : v ∈ F.subtrees) (ht : IsTuple forests v t) (hn : n ∈ t)
    (hq : parentOf forests n = some q) (hu : IsCommon F forests u) (huq : Occurs forests u q) :
    F.parent v = some u ∧ ∃ s, F.sibling v = some s ∧ IsCommon F forests s ∧
      ∀ m ∈ t, ∃ p b, parentOf forests m = some p ∧ Occurs forests u p ∧ siblingOf forests m = some b ∧
        Occurs forests s b := by
  have hd := hI.distinct h₀
  obtain ⟨G, hG, hnG, hvn⟩ := ht.occurs n hn
  obtain ⟨G', hG', hq₁, hp⟩ := parentOf_eq_some.1 hq
  obtain rfl := Option.some.inj (hG.symm.trans hG')
  obtain ⟨-, -, -, huq⟩ := huq
  obtain ⟨hparent, -, s, -, hs, -⟩ := Forest.exists_of_identical_parent (hI.distinct hG) hd hv hvn.symm hp hu.1 huq.symm
  have hsu : s ∈ u.subtrees := by
    obtain ⟨p, hnode | hnode⟩ := (Forest.sibling_eq_some_iff hd).1 hs
    · obtain rfl := Option.some.inj (hparent.symm.trans ((Forest.parent_eq_some_iff hd).2 ⟨hnode, Or.inl rfl⟩))
      exact Tree.mem_subtrees_node.2 (Or.inr (Or.inr (Tree.mem_subtrees_self s)))
    · obtain rfl := Option.some.inj (hparent.symm.trans ((Forest.parent_eq_some_iff hd).2 ⟨hnode, Or.inr rfl⟩))
      exact Tree.mem_subtrees_node.2 (Or.inr (Or.inl (Tree.mem_subtrees_self s)))
  refine ⟨hparent, s, hs, hu.of_mem hsu, fun m hm => ?_⟩
  obtain ⟨H, hH, hmH, hvm⟩ := ht.occurs m hm
  obtain ⟨w, hw, huw⟩ := hu.2 H (List.mem_of_getElem? hH)
  obtain ⟨hpw, a, b, ha, hb, hab⟩ := Forest.exists_of_identical_parent hd (hI.distinct hH) hmH hvm hparent hw huw
  obtain rfl := Option.some.inj (hs.symm.trans ha)
  have hbH : b ∈ H.subtrees := by
    obtain ⟨-, -, -, -, -, h, -⟩ := Forest.exists_of_sibling (hI.distinct hH) hb
    exact h
  exact ⟨(m.1, w), (m.1, b), parentOf_eq_some.2 ⟨H, hH, rfl, hpw⟩, ⟨H, hH, hw, huw⟩,
    siblingOf_eq_some.2 ⟨H, hH, rfl, hb⟩, ⟨H, hH, hbH, hab⟩⟩

end Tuples

section Ancestors

variable {width depth : ℕ} {forests : List Forest} {F : Forest} {u v : Tree} {n q : Node} {nodes : List Node}
  {seen : Finset Node}

/-- One round of `addAncestorSeenDiffNodes`. -/
theorem unseenParents_spec (forests : List Forest) (nodes : List Node) (seen : Finset Node) :
    (∀ q ∈ (unseenParents forests nodes seen).1, ∃ n ∈ nodes, parentOf forests n = some q) ∧
      ∀ q, q ∈ (unseenParents forests nodes seen).2 ↔ q ∈ seen ∨ q ∈ (unseenParents forests nodes seen).1 := by
  induction nodes generalizing seen with
  | nil => exact ⟨fun q hq => absurd hq List.not_mem_nil, fun q => by simp [unseenParents]⟩
  | cons n nodes ih =>
      have skip : unseenParents forests (n :: nodes) seen = unseenParents forests nodes seen →
          (∀ q ∈ (unseenParents forests (n :: nodes) seen).1, ∃ m ∈ n :: nodes, parentOf forests m = some q) ∧
            ∀ q, q ∈ (unseenParents forests (n :: nodes) seen).2 ↔
              q ∈ seen ∨ q ∈ (unseenParents forests (n :: nodes) seen).1 := fun h => by
        rw [h]
        refine ⟨fun q hq => ?_, (ih seen).2⟩
        obtain ⟨m, hm, hq⟩ := (ih seen).1 q hq
        exact ⟨m, List.mem_cons_of_mem _ hm, hq⟩
      cases hp : parentOf forests n with
      | none => exact skip (by simp [unseenParents, hp])
      | some p =>
          by_cases hmem : p ∈ seen
          · exact skip (by simp [unseenParents, hp, hmem])
          · obtain ⟨h₁, h₂⟩ := ih (insert p seen)
            simp only [unseenParents, hp, if_neg hmem]
            refine ⟨fun q hq => ?_, fun q => ?_⟩
            · rcases List.mem_cons.1 hq with rfl | hq
              · exact ⟨n, List.mem_cons_self .., hp⟩
              · obtain ⟨m, hm, hq⟩ := h₁ q hq
                exact ⟨m, List.mem_cons_of_mem _ hm, hq⟩
            · rw [h₂, Finset.mem_insert, List.mem_cons]
              tauto

/-- Every parent has been seen afterwards. -/
theorem parent_mem_unseenParents (forests : List Forest) (nodes : List Node) (seen : Finset Node) :
    ∀ n ∈ nodes, ∀ q, parentOf forests n = some q → q ∈ (unseenParents forests nodes seen).2 := by
  induction nodes generalizing seen with
  | nil => exact fun n hn => absurd hn List.not_mem_nil
  | cons m nodes ih =>
      intro n hn q hq
      have hall := fun seen => (unseenParents_spec forests nodes seen).2
      cases hp : parentOf forests m with
      | none =>
          simp only [unseenParents, hp]
          rcases List.mem_cons.1 hn with rfl | hn
          · rw [hp] at hq
            cases hq
          · exact ih seen n hn q hq
      | some p =>
          by_cases hmem : p ∈ seen
          · simp only [unseenParents, hp, if_pos hmem]
            rcases List.mem_cons.1 hn with rfl | hn
            · obtain rfl := Option.some.inj (hp.symm.trans hq)
              exact (hall seen p).2 (Or.inl hmem)
            · exact ih seen n hn q hq
          · simp only [unseenParents, hp, if_neg hmem]
            rcases List.mem_cons.1 hn with rfl | hn
            · obtain rfl := Option.some.inj (hp.symm.trans hq)
              exact (hall _ p).2 (Or.inl (Finset.mem_insert_self p seen))
            · exact ih _ n hn q hq

/-- Parents of the nodes of a set lie in the set. -/
def Closed (forests : List Forest) (seen : Finset Node) : Prop :=
  ∀ n ∈ seen, ∀ q, parentOf forests n = some q → q ∈ seen

/-- **`addAncestorSeenDiffNodes` adds ancestors only, the parents among them**, and leaves
the set closed. -/
theorem addAncestorSeenDiffNodes_spec (nodes : List Node) (hI : IsInstance width forests) {size : ℕ}
    (hsize : ∀ n, IsNode forests n → n.2.subtrees.length ≤ size) {P : Node → Prop}
    (hP : ∀ n q, P n → parentOf forests n = some q → P q) {fuel : ℕ} (hpos : 0 < fuel)
    (hfuel : ∀ n ∈ nodes, size < n.2.subtrees.length + fuel) (hseen : ∀ n ∈ seen, P n)
    (hnodes : ∀ n ∈ nodes, ∀ q, parentOf forests n = some q → P q)
    (hclosed : ∀ n ∈ seen, ∀ q, parentOf forests n = some q → q ∈ seen ∨ n ∈ nodes) :
    ∃ seen', addAncestorSeenDiffNodes forests fuel nodes seen = some seen' ∧ seen ⊆ seen' ∧ (∀ n ∈ seen', P n) ∧
      (∀ n ∈ nodes, ∀ q, parentOf forests n = some q → q ∈ seen') ∧ Closed forests seen' := by
  induction fuel generalizing nodes seen with
  | zero => exact absurd hpos (lt_irrefl 0)
  | succ fuel ih =>
      obtain ⟨hparents, hmem⟩ := unseenParents_spec forests nodes seen
      have hall := parent_mem_unseenParents forests nodes seen
      rw [addAncestorSeenDiffNodes]
      generalize unseenParents forests nodes seen = r at hparents hmem hall
      obtain ⟨parents, seen₁⟩ := r
      have hsub : seen ⊆ seen₁ := fun n hn => (hmem n).2 (Or.inl hn)
      have hgood : ∀ n ∈ seen₁, P n := fun n hn => by
        rcases (hmem n).1 hn with hn | hn
        · exact hseen n hn
        · obtain ⟨m, hm, hn⟩ := hparents n hn
          exact hnodes m hm n hn
      have hstep : ∀ n ∈ seen₁, ∀ q, parentOf forests n = some q → q ∈ seen₁ ∨ n ∈ parents := fun n hn q hq => by
        rcases (hmem n).1 hn with hn | hn
        · rcases hclosed n hn q hq with h | h
          · exact Or.inl (hsub h)
          · exact Or.inl (hall n h q hq)
        · exact Or.inr hn
      cases parents with
      | nil => exact ⟨seen₁, rfl, hsub, hgood, hall, fun n hn q hq => (hstep n hn q hq).resolve_right List.not_mem_nil⟩
      | cons p parents =>
          have hlt : ∀ q ∈ p :: parents, size < q.2.subtrees.length + fuel ∧ IsNode forests q := fun q hq => by
            obtain ⟨m, hm, hq⟩ := hparents q hq
            obtain ⟨-, hnode, -, hlen⟩ := lt_of_parentOf hI hq
            have := hfuel m hm
            exact ⟨by omega, hnode⟩
          have hpos' : 0 < fuel := by
            obtain ⟨h, hnode⟩ := hlt p (List.mem_cons_self ..)
            have := hsize p hnode
            omega
          obtain ⟨seen', hrun, hsub', hgood', -, hclosed'⟩ := ih (p :: parents) hpos' (fun q hq => (hlt q hq).1) hgood
            (fun q hq r hr => hP q r (hgood q ((hmem q).2 (Or.inr hq))) hr) hstep
          exact ⟨seen', hrun, hsub.trans hsub', hgood', fun n hn q hq => hsub' (hall n hn q hq), hclosed'⟩

/-- No common subtree is identical to the node. -/
def Uncommon (F : Forest) (forests : List Forest) (n : Node) : Prop :=
  ∀ u, IsCommon F forests u → ¬Occurs forests u n

/-- A node above an uncommon one is uncommon. -/
theorem Uncommon.parent (hI : IsInstance width forests) (hn : Uncommon F forests n) (hq : parentOf forests n = some q) :
    Uncommon F forests q := by
  rintro u hu ⟨G, hG, -, huq⟩
  obtain ⟨⟨H, hH, hnH⟩, -, hnq, -⟩ := lt_of_parentOf hI hq
  obtain ⟨w, hw, hnw⟩ := huq.symm.exists_of_mem hnq
  exact hn w (hu.of_mem hw) ⟨H, hH, hnH, hnw.symm⟩

end Ancestors

section Rounds

variable {width depth size : ℕ} {forests : List Forest} {F : Forest} {u v : Tree} {n q : Node} {t : List Node}
  {P : Finset Tree} {Q L : List Tree} {s : Search}

/-- **The invariant of the search**: `P` are the subtrees of the first forest that were
queued, `Q` those that still are, `L` those found to be maximal. -/
structure Search.Inv (forests : List Forest) (F : Forest) (P : Finset Tree) (Q L : List Tree) (s : Search) : Prop where
  common : ∀ v ∈ P, IsCommon F forests v
  terminal : ∀ v ∈ F.subtrees, v.isTerminal = true → v ∈ P
  queue : List.Forall₂ (IsTuple forests) Q s.queue
  maximum : List.Forall₂ (IsTuple forests) L s.maximum
  nodup : (Q ++ L).Nodup
  queued : ∀ v ∈ Q ++ L, v ∈ P
  maximal : ∀ v ∈ L, ∀ p, F.parent v = some p → (0, p) ∈ s.diff
  climbed : ∀ v ∈ P, v ∉ Q → v ∈ L ∨ ∃ p, F.parent v = some p ∧ p ∈ P
  identical : ∀ n, n ∈ s.identical ↔ ∃ v ∈ P, Occurs forests v n
  diff : ∀ n ∈ s.diff, Uncommon F forests n
  closed : Closed forests s.diff

/-- The tuple goes to the end of the queue. -/
def Waits (forests : List Forest) (s : Search) (t : List Node) : Prop :=
  ∃ siblings, t.mapM (siblingOf forests) = some siblings ∧ ∀ n ∈ siblings, n ∉ s.identical ∧ n ∉ s.diff

/-- What is left to do. -/
def measure (F : Forest) (P : Finset Tree) (Q : List Tree) : ℕ := 2 * (F.subtrees.length - P.card) + Q.length

/-- No more subtrees are decided than the forest has. -/
theorem Search.Inv.card_le (h : s.Inv forests F P Q L) : P.card ≤ F.subtrees.length :=
  (Finset.card_le_card fun v hv => List.mem_toFinset.2 (h.common v hv).1).trans (List.toFinset_card_le _)

/-- No more subtrees wait than the forest has. -/
theorem Search.Inv.length_le (h : s.Inv forests F P Q L) : Q.length ≤ F.subtrees.length := by
  have hnodup := (List.nodup_append.1 h.nodup).1
  rw [← List.toFinset_card_of_nodup hnodup]
  exact (Finset.card_le_card fun v hv => h.queued v (List.mem_append_left _ (List.mem_toFinset.1 hv))).trans h.card_le

variable (hI : IsInstance width forests) (h₀ : forests[0]? = some F)
include hI h₀

/-- A queued subtree is one of those whose nodes were seen. -/
theorem Search.Inv.mem_identical_iff (h : s.Inv forests F P Q L) (hv : v ∈ F.subtrees) (hvn : Occurs forests v n) :
    n ∈ s.identical ↔ v ∈ P := by
  rw [h.identical]
  constructor
  · rintro ⟨w, hw, hwn⟩
    exact hwn.left_unique hI h₀ (h.common w hw).1 hv hvn ▸ hw
  · exact fun hv => ⟨v, hv, hvn⟩

/-- **A tuple whose parents are not common is maximal.** -/
theorem Search.Inv.pushMaximum (hsize : ∀ n, IsNode forests n → n.2.subtrees.length ≤ size) (hdepth : size < depth)
    (h : s.Inv forests F P (v :: Q) L) {queue : List (List Node)} (hqueue : s.queue = t :: queue)
    (hup : ∀ n ∈ t, ∀ q, parentOf forests n = some q → Uncommon F forests q) :
    ∃ s', SubtreeReductionRule.pushMaximum forests depth t { s with queue := queue } = some s' ∧
      s'.Inv forests F P Q (L ++ [v]) := by
  obtain ⟨ht, hQ⟩ := List.forall₂_cons.1 (hqueue ▸ h.queue)
  have hvP := h.queued v (by simp)
  obtain ⟨diff, hrun, hsub, hdiff, hparents, hclosed⟩ :=
    addAncestorSeenDiffNodes_spec t hI hsize (P := Uncommon F forests)
    (fun n q hn hq => hn.parent hI hq) (by omega : 0 < depth) (fun n _ => by omega) h.diff hup
    fun n hn q hq => Or.inl (h.closed n hn q hq)
  obtain ⟨ts, rfl⟩ := ht.eq_cons hI h₀ (h.common v hvP).1
  have hperm : (Q ++ (L ++ [v])).Perm (v :: Q ++ L) := by
    rw [← List.append_assoc]
    exact List.perm_append_singleton v (Q ++ L)
  refine ⟨{ s with queue := queue, maximum := s.maximum ++ [(0, v) :: ts], diff := diff },
    by rw [SubtreeReductionRule.pushMaximum, hrun]; rfl, ⟨h.common, h.terminal, hQ, ?_, ?_, ?_, ?_, ?_, h.identical,
      hdiff, hclosed⟩⟩
  · exact List.rel_append h.maximum (.cons ht .nil)
  · exact hperm.nodup_iff.2 h.nodup
  · exact fun w hw => h.queued w (hperm.mem_iff.1 hw)
  · intro w hw p hp
    rcases List.mem_append.1 hw with hw | hw
    · exact hsub (h.maximal w hw p hp)
    · rw [List.mem_singleton.1 hw] at hp
      exact hparents (0, v) (List.mem_cons_self ..) (0, p) (parentOf_eq_some.2 ⟨F, h₀, rfl, hp⟩)
  · intro w hw hwQ
    by_cases hwv : w = v
    · exact Or.inl (by simp [hwv])
    · refine (h.climbed w hw (by simp [hwv, hwQ])).imp_left fun h => List.mem_append_left _ h

omit h₀ in
/-- **A tuple whose siblings are identical gives way to its parents.** -/
theorem Search.Inv.pushParents (h : s.Inv forests F P (v :: Q) L) {queue : List (List Node)}
    (hqueue : s.queue = t :: queue) {p : Tree} (hp : F.parent v = some p) (hcom : IsCommon F forests p)
    {parents : List Node} (hparents : IsTuple forests p parents) (hnew : p ∉ P) :
    Search.Inv forests F (insert p P) (Q ++ [p]) L
      { s with queue := queue ++ [parents], identical := s.identical ∪ parents.toFinset } := by
  obtain ⟨ht, hQ⟩ := List.forall₂_cons.1 (hqueue ▸ h.queue)
  have hfresh : p ∉ Q ++ L := fun hmem => hnew (h.queued p (by
    rw [List.cons_append]
    exact List.mem_cons_of_mem _ hmem))
  have hnodup : (Q ++ L).Nodup := (List.nodup_cons.1 (List.cons_append ▸ h.nodup)).2
  have hperm : (Q ++ [p] ++ L).Perm (p :: (Q ++ L)) := by
    rw [List.append_assoc]
    exact List.perm_middle
  refine ⟨?_, fun w hw hterm => Finset.mem_insert_of_mem (h.terminal w hw hterm), ?_, h.maximum, ?_, ?_, h.maximal,
    ?_, ?_, h.diff, h.closed⟩
  · intro w hw
    rcases Finset.mem_insert.1 hw with rfl | hw
    · exact hcom
    · exact h.common w hw
  · exact List.rel_append hQ (.cons hparents .nil)
  · exact hperm.nodup_iff.2 (List.nodup_cons.2 ⟨hfresh, hnodup⟩)
  · intro w hw
    rcases List.mem_cons.1 (hperm.mem_iff.1 hw) with rfl | hw
    · exact Finset.mem_insert_self ..
    · exact Finset.mem_insert_of_mem (h.queued w (by rw [List.cons_append]; exact List.mem_cons_of_mem _ hw))
  · intro w hw hwQ
    rw [List.mem_append, List.mem_singleton, not_or] at hwQ
    have hwP := (Finset.mem_insert.1 hw).resolve_left hwQ.2
    by_cases hwv : w = v
    · exact Or.inr ⟨p, hwv ▸ hp, Finset.mem_insert_self ..⟩
    · rcases h.climbed w hwP (by simp [hwv, hwQ.1]) with hL | ⟨p', hp', hmem⟩
      · exact Or.inl hL
      · exact Or.inr ⟨p', hp', Finset.mem_insert_of_mem hmem⟩
  · intro n
    simp only [Finset.mem_union, List.mem_toFinset, h.identical, Finset.exists_mem_insert]
    constructor
    · rintro (⟨w, hw, hwn⟩ | hn)
      · exact Or.inr ⟨w, hw, hwn⟩
      · exact Or.inl (hparents.occurs n hn)
    · rintro (hn | ⟨w, hw, hwn⟩)
      · exact Or.inr (hparents.mem_of_occurs hI hn)
      · exact Or.inl ⟨w, hw, hwn⟩

omit hI h₀ in
/-- A tuple whose parents were queued before is dropped. -/
theorem Search.Inv.drop (h : s.Inv forests F P (v :: Q) L) {queue : List (List Node)} (hqueue : s.queue = t :: queue)
    {p : Tree} (hp : F.parent v = some p) (hmem : p ∈ P) : Search.Inv forests F P Q L { s with queue := queue } := by
  obtain ⟨-, hQ⟩ := List.forall₂_cons.1 (hqueue ▸ h.queue)
  refine ⟨h.common, h.terminal, hQ, h.maximum, (List.nodup_cons.1 (List.cons_append ▸ h.nodup)).2, fun w hw => ?_,
    h.maximal, fun w hw hwQ => ?_, h.identical, h.diff, h.closed⟩
  · exact h.queued w (by rw [List.cons_append]; exact List.mem_cons_of_mem _ hw)
  · by_cases hwv : w = v
    · exact Or.inr ⟨p, hwv ▸ hp, hmem⟩
    · exact h.climbed w hw (by simp [hwv, hwQ])

omit hI h₀ in
/-- A tuple that waits goes to the end. -/
theorem Search.Inv.requeue (h : s.Inv forests F P (v :: Q) L) {queue : List (List Node)}
    (hqueue : s.queue = t :: queue) :
    Search.Inv forests F P (Q ++ [v]) L { s with queue := queue ++ [t] } := by
  obtain ⟨ht, hQ⟩ := List.forall₂_cons.1 (hqueue ▸ h.queue)
  have hperm : (Q ++ [v]).Perm (v :: Q) := List.perm_append_singleton v Q
  refine ⟨h.common, h.terminal, List.rel_append hQ (.cons ht .nil), h.maximum,
    (hperm.append_right L).nodup_iff.2 h.nodup,
    fun w hw => h.queued w ((hperm.append_right L).mem_iff.1 hw), h.maximal,
    fun w hw hwQ => h.climbed w hw fun h => hwQ (hperm.mem_iff.2 h), h.identical, h.diff, h.closed⟩

omit h₀ in
/-- Nodes with parents have siblings. -/
theorem exists_siblings (h : ∀ n ∈ t, ∃ q, parentOf forests n = some q) :
    ∃ siblings, t.mapM (siblingOf forests) = some siblings := by
  refine Scan.exists_mapM fun n hn => ?_
  obtain ⟨q, hq⟩ := h n hn
  obtain ⟨G, hG, -, hp⟩ := parentOf_eq_some.1 hq
  obtain ⟨b, hb, -⟩ := Forest.exists_sibling (hI.distinct hG) hp
  exact ⟨(n.1, b), siblingOf_eq_some.2 ⟨G, hG, rfl, hb⟩⟩

omit h₀ in
/-- A node with a sibling has a parent. -/
theorem exists_parentOf (h : siblingOf forests n = some q) : ∃ p, parentOf forests n = some p := by
  obtain ⟨G, hG, -, hb⟩ := siblingOf_eq_some.1 h
  obtain ⟨p, hp, -⟩ := Forest.exists_of_sibling (hI.distinct hG) hb
  exact ⟨(n.1, p), parentOf_eq_some.2 ⟨G, hG, rfl, hp⟩⟩

/-- **Siblings in common subtrees with the same terminals are identical**, so the parents
are too. -/
theorem Search.Inv.common_of_siblings (h : s.Inv forests F P Q L) (hv : v ∈ F.subtrees) (ht : IsTuple forests v t)
    {compareSibling : Node} {siblings : List Node}
    (hsib : t.mapM (siblingOf forests) = some (compareSibling :: siblings))
    (hseen : ∀ b ∈ compareSibling :: siblings, b ∈ s.identical)
    (hsame : ∀ b ∈ compareSibling :: siblings, compareSibling.2.hasSameTerminals width b.2 = true) :
    ∃ u, F.parent v = some u ∧ IsCommon F forests u := by
  have hF := List.mem_of_getElem? h₀
  have hd := hI.distinct h₀
  obtain ⟨ts, rfl⟩ := ht.eq_cons hI h₀ hv
  obtain ⟨G, hG, hzero, hs₀⟩ := siblingOf_eq_some.1 (List.forall₂_cons.1 (Scan.mapM_eq_some_iff.1 hsib)).1
  obtain rfl := Option.some.inj (h₀.symm.trans hG)
  obtain ⟨u, hu, -, huF, -, hs₀F, -⟩ := Forest.exists_of_sibling hd hs₀
  refine ⟨u, hu, huF, fun G hG => ?_⟩
  obtain ⟨i, hi⟩ := List.getElem?_of_mem hG
  obtain ⟨n, hn, rfl⟩ : ∃ n ∈ (0, v) :: ts, n.1 = i :=
    List.mem_map.1 (ht.indices ▸ List.mem_range.2 (List.getElem?_eq_some_iff.1 hi).1)
  obtain ⟨b, hb, hnb⟩ := (Scan.mapM_mem hsib).1 n hn
  obtain ⟨H, hH, hb₁, hnb⟩ := siblingOf_eq_some.1 hnb
  obtain rfl := Option.some.inj (hi.symm.trans hH)
  obtain ⟨pb, hpb, -, hpbG, -, hbG, -⟩ := Forest.exists_of_sibling (hI.distinct hi) hnb
  obtain ⟨w, hw, H', hH', -, hwb⟩ := (h.identical b).1 (hseen b hb)
  -- the subtree of the first forest that the sibling is identical to is the sibling of `v`
  have hterm : compareSibling.2.subtreeTerminals = b.2.subtreeTerminals :=
    (Tree.hasSameTerminals_iff ((hI.fits F hF).of_mem hs₀F).2 ((hI.fits G hG).of_mem hbG).2).1 (hsame b hb)
  have hws : w = compareSibling.2 := by
    refine Forest.eq_of_labels_eq hd (h.common w hw).1 hs₀F ?_
    exact Forest.labels_eq_of_subtreeTerminals_eq (hI.fits F hF).valid (hI.fits F hF).valid (hI.same F hF F hF)
      (h.common w hw).1 hs₀F (hwb.subtreeTerminals_eq.trans hterm.symm)
  obtain ⟨G', hG', -, hvn⟩ := ht.occurs n hn
  exact ⟨pb, hpbG, Forest.identical_parent hd (hI.distinct hi) hvn (hws ▸ hwb) hs₀ hnb hu hpb⟩

/-- **One round, when the parents are common**: the parents are queued or were, or the
tuple waits. -/
theorem Search.Inv.visit_common (depth : ℕ) (h : s.Inv forests F P (v :: Q) L) {queue : List (List Node)}
    (hqueue : s.queue = t :: queue) (hn : n ∈ t) (hq : parentOf forests n = some q) (hu : IsCommon F forests u)
    (huq : Occurs forests u q) :
    ∃ s', visit width forests depth t { s with queue := queue } = some s' ∧
      (Waits forests s t ∧ s' = { s with queue := queue ++ [t] } ∨
        ¬Waits forests s t ∧ ∃ P' Q', s'.Inv forests F P' Q' L ∧ measure F P' Q' < measure F P (v :: Q)) := by
  obtain ⟨ht, -⟩ := List.forall₂_cons.1 (hqueue ▸ h.queue)
  have hvF := (h.common v (h.queued v (by simp))).1
  obtain ⟨hup, sib, -, hsib, hall⟩ := ht.common_parent hI h₀ hvF hn hq hu huq
  obtain ⟨ts, rfl⟩ := ht.eq_cons hI h₀ hvF
  have hroot : ¬((0, v) :: ts).any fun n => (parentOf forests n).isNone := by
    rw [List.any_eq_true]
    rintro ⟨m, hm, hnone⟩
    obtain ⟨p, -, hp, -⟩ := hall m hm
    rw [hp] at hnone
    cases hnone
  obtain ⟨siblings, hrun⟩ := exists_siblings hI fun m hm => (hall m hm).imp fun p ⟨_, hp, _⟩ => hp
  obtain ⟨parents, hrunP⟩ := Scan.exists_mapM (f := parentOf forests) fun m hm => (hall m hm).imp fun p ⟨_, hp, _⟩ => hp
  have hoccurs : ∀ b ∈ siblings, Occurs forests sib b := fun b hb => by
    obtain ⟨m, hm, hmb⟩ := (Scan.mapM_mem hrun).2 b hb
    obtain ⟨-, b', -, -, hb', hocc⟩ := hall m hm
    exact Option.some.inj (hb'.symm.trans hmb) ▸ hocc
  have hparents : IsTuple forests u parents := by
    refine ⟨(Scan.map_mapM (fun m p hp => ?_) hrunP).trans ht.indices, fun p hp => ?_⟩
    · obtain ⟨-, -, h, -⟩ := parentOf_eq_some.1 hp
      exact h
    · obtain ⟨m, hm, hmp⟩ := (Scan.mapM_mem hrunP).2 p hp
      obtain ⟨p', -, hp', hocc, -⟩ := hall m hm
      exact Option.some.inj (hp'.symm.trans hmp) ▸ hocc
  have hmem : ∀ b ∈ siblings, (b ∈ s.identical ↔ sib ∈ P) := fun b hb =>
    h.mem_identical_iff hI h₀ hsib.1 (hoccurs b hb)
  have hdiff : ∀ b ∈ siblings, b ∉ s.diff := fun b hb hbad => h.diff b hbad sib hsib (hoccurs b hb)
  obtain ⟨compareSibling, siblings, -, -, rfl⟩ := List.forall₂_cons_left_iff.1 (Scan.mapM_eq_some_iff.1 hrun)
  obtain ⟨parent, parents, -, -, rfl⟩ := List.forall₂_cons_left_iff.1 (Scan.mapM_eq_some_iff.1 hrunP)
  rw [visit, if_neg hroot]
  simp only [hrun, hrunP, Option.bind_eq_bind, Option.bind_some, List.head?_cons]
  by_cases hsibP : sib ∈ P
  · have hwaits : ¬Waits forests s ((0, v) :: ts) := by
      rintro ⟨bs, hbs, hno⟩
      obtain rfl := Option.some.inj (hrun.symm.trans hbs)
      exact (hno _ (List.mem_cons_self ..)).1 ((hmem _ (List.mem_cons_self ..)).2 hsibP)
    have hsame : ∀ b ∈ compareSibling :: siblings, compareSibling.2.hasSameTerminals width b.2 = true := fun b hb => by
      obtain ⟨-, -, -, h₁⟩ := hoccurs _ (List.mem_cons_self ..)
      obtain ⟨-, -, -, h₂⟩ := hoccurs b hb
      rw [Tree.hasSameTerminals, ← h₁.subtreeTerminals_eq, ← h₂.subtreeTerminals_eq]
      exact decide_eq_true rfl
    rw [if_pos (List.all_eq_true.2 fun b hb => decide_eq_true ((hmem b hb).2 hsibP)), if_pos (List.all_eq_true.2 hsame)]
    have hparent := h.mem_identical_iff hI h₀ hu.1 (hparents.occurs parent (List.mem_cons_self ..))
    by_cases huP : u ∈ P
    · rw [if_pos (hparent.2 huP)]
      refine ⟨_, rfl, Or.inr ⟨hwaits, P, Q, h.drop hqueue hup huP, ?_⟩⟩
      simp only [measure, List.length_cons]
      omega
    · rw [if_neg fun h => huP (hparent.1 h)]
      have hinv := h.pushParents hI hqueue hup hu hparents huP
      refine ⟨_, rfl, Or.inr ⟨hwaits, _, _, hinv, ?_⟩⟩
      have := hinv.card_le
      rw [Finset.card_insert_of_notMem huP] at this
      simp only [measure, List.length_cons, List.length_append, List.length_nil, Finset.card_insert_of_notMem huP]
      omega
  · have hnone : ∀ b ∈ compareSibling :: siblings, b ∉ s.identical := fun b hb h => hsibP ((hmem b hb).1 h)
    have hsome : ¬((compareSibling :: siblings).all fun b => decide (b ∈ s.identical)) = true := fun hall =>
      hnone _ (List.mem_cons_self ..) (of_decide_eq_true (List.all_eq_true.1 hall _ (List.mem_cons_self ..)))
    rw [if_neg hsome, if_pos (List.all_eq_true.2 fun b hb => decide_eq_true (hnone b hb)),
      if_pos (List.all_eq_true.2 fun b hb => decide_eq_true (hdiff b hb))]
    exact ⟨_, rfl, Or.inl ⟨⟨_, hrun, fun b hb => ⟨hnone b hb, hdiff b hb⟩⟩, rfl⟩⟩

/-- **One round, when the parents are not common**: the tuple is maximal, unless it waits. -/
theorem Search.Inv.visit_uncommon (hsize : ∀ n, IsNode forests n → n.2.subtrees.length ≤ size) (hdepth : size < depth)
    (h : s.Inv forests F P (v :: Q) L) {queue : List (List Node)} (hqueue : s.queue = t :: queue)
    (hup : ∀ n ∈ t, ∀ q, parentOf forests n = some q → Uncommon F forests q) :
    ∃ s', visit width forests depth t { s with queue := queue } = some s' ∧
      (Waits forests s t ∧ s' = { s with queue := queue ++ [t] } ∨
        ¬Waits forests s t ∧ s'.Inv forests F P Q (L ++ [v])) := by
  obtain ⟨ht, -⟩ := List.forall₂_cons.1 (hqueue ▸ h.queue)
  have hvF := (h.common v (h.queued v (by simp))).1
  obtain ⟨s', hrun, hinv⟩ := h.pushMaximum hI h₀ hsize hdepth hqueue hup
  by_cases hroot : (t.any fun n => (parentOf forests n).isNone) = true
  · refine ⟨s', by rw [visit, if_pos hroot, hrun], Or.inr ⟨?_, hinv⟩⟩
    rintro ⟨bs, hbs, -⟩
    obtain ⟨n, hn, hnone⟩ := List.any_eq_true.1 hroot
    obtain ⟨b, -, hb⟩ := (Scan.mapM_mem hbs).1 n hn
    obtain ⟨p, hp⟩ := exists_parentOf hI hb
    rw [hp] at hnone
    cases hnone
  · obtain ⟨siblings, hsib⟩ := exists_siblings hI (t := t) fun n hn => by
      by_contra hno
      exact hroot (List.any_eq_true.2 ⟨n, hn, Option.isNone_iff_eq_none.2
        (Option.eq_none_iff_forall_ne_some.2 fun q hq => hno ⟨q, hq⟩)⟩)
    obtain ⟨ts, rfl⟩ := ht.eq_cons hI h₀ hvF
    obtain ⟨compareSibling, siblings, -, -, rfl⟩ := List.forall₂_cons_left_iff.1 (Scan.mapM_eq_some_iff.1 hsib)
    rw [visit, if_neg hroot]
    simp only [hsib, Option.bind_eq_bind, Option.bind_some, List.head?_cons, hrun]
    have hdecided : (∃ b ∈ compareSibling :: siblings, b ∈ s.identical ∨ b ∈ s.diff) →
        ¬Waits forests s ((0, v) :: ts) := by
      rintro ⟨b, hb, hseen⟩ ⟨bs, hbs, hno⟩
      obtain rfl := Option.some.inj (hsib.symm.trans hbs)
      exact hseen.elim (hno b hb).1 (hno b hb).2
    by_cases hall : ((compareSibling :: siblings).all fun b => decide (b ∈ s.identical)) = true
    · have hseen : ∀ b ∈ compareSibling :: siblings, b ∈ s.identical := fun b hb =>
        of_decide_eq_true (List.all_eq_true.1 hall b hb)
      rw [if_pos hall]
      by_cases hsame : ((compareSibling :: siblings).all fun b =>
          Tree.hasSameTerminals width compareSibling.2 b.2) = true
      · obtain ⟨u, hu, hcom⟩ := h.common_of_siblings hI h₀ hvF ht hsib hseen (List.all_eq_true.1 hsame)
        exact absurd (occurs_zero h₀ hcom.1)
          (hup (0, v) (List.mem_cons_self ..) (0, u) (parentOf_eq_some.2 ⟨F, h₀, rfl, hu⟩) u hcom)
      · rw [if_neg hsame]
        exact ⟨s', rfl, Or.inr ⟨hdecided ⟨_, List.mem_cons_self .., Or.inl (hseen _ (List.mem_cons_self ..))⟩, hinv⟩⟩
    · rw [if_neg hall]
      by_cases hnone : ((compareSibling :: siblings).all fun b => decide (b ∉ s.identical)) = true
      · rw [if_pos hnone]
        by_cases hdiff : ((compareSibling :: siblings).all fun b => decide (b ∉ s.diff)) = true
        · rw [if_pos hdiff]
          exact ⟨_, rfl, Or.inl ⟨⟨_, hsib, fun b hb => ⟨of_decide_eq_true (List.all_eq_true.1 hnone b hb),
            of_decide_eq_true (List.all_eq_true.1 hdiff b hb)⟩⟩, rfl⟩⟩
        · rw [if_neg hdiff]
          rw [List.all_eq_true] at hdiff
          push Not at hdiff
          obtain ⟨b, hb, hmem⟩ := hdiff
          exact ⟨s', rfl, Or.inr ⟨hdecided ⟨b, hb, Or.inr (by simpa using hmem)⟩, hinv⟩⟩
      · rw [if_neg hnone]
        rw [List.all_eq_true] at hnone
        push Not at hnone
        obtain ⟨b, hb, hmem⟩ := hnone
        exact ⟨s', rfl, Or.inr ⟨hdecided ⟨b, hb, Or.inl (by simpa using hmem)⟩, hinv⟩⟩

/-- **One round**: less is left to do, or the tuple waits. -/
theorem Search.Inv.visit (hsize : ∀ n, IsNode forests n → n.2.subtrees.length ≤ size) (hdepth : size < depth)
    (h : s.Inv forests F P (v :: Q) L) {queue : List (List Node)} (hqueue : s.queue = t :: queue) :
    ∃ s', SubtreeReductionRule.visit width forests depth t { s with queue := queue } = some s' ∧
      (Waits forests s t ∧ s' = { s with queue := queue ++ [t] } ∨
        ¬Waits forests s t ∧ ∃ P' Q' L', s'.Inv forests F P' Q' L' ∧ measure F P' Q' < measure F P (v :: Q)) := by
  by_cases hgood : ∃ n ∈ t, ∃ q, parentOf forests n = some q ∧ ∃ u, IsCommon F forests u ∧ Occurs forests u q
  · obtain ⟨n, hn, q, hq, u, hu, huq⟩ := hgood
    obtain ⟨s', hrun, h'⟩ := h.visit_common hI h₀ depth hqueue hn hq hu huq
    exact ⟨s', hrun, h'.imp_right fun ⟨hwaits, P', Q', hinv⟩ => ⟨hwaits, P', Q', L, hinv⟩⟩
  · have hup : ∀ n ∈ t, ∀ q, parentOf forests n = some q → Uncommon F forests q :=
      fun n hn q hq u hu huq => hgood ⟨n, hn, q, hq, u, hu, huq⟩
    obtain ⟨s', hrun, h'⟩ := h.visit_uncommon hI h₀ hsize hdepth hqueue hup
    refine ⟨s', hrun, h'.imp_right fun ⟨hwaits, hinv⟩ => ⟨hwaits, P, Q, _, hinv, ?_⟩⟩
    simp only [measure, List.length_cons]
    omega

/-- Below a node that was neither queued nor seen to be uncommon a queued node has a
sibling that was queued. -/
theorem Search.Inv.exists_queued (h : s.Inv forests F P Q L) (hv : v ∈ F.subtrees) (hvP : v ∉ P)
    (hdiff : (0, v) ∉ s.diff) :
    ∃ c ∈ Q, ∃ sib ∈ P, F.sibling c = some sib := by
  have hd := hI.distinct h₀
  induction v with
  | leaf p x m => exact absurd (h.terminal _ hv rfl) hvP
  | node p l r ihl ihr =>
      obtain ⟨hl, hr⟩ := Forest.mem_subtrees_children hv
      have hpl := (Forest.parent_eq_some_iff hd).2 ⟨hv, Or.inl rfl⟩
      have hpr := (Forest.parent_eq_some_iff hd).2 ⟨hv, Or.inr rfl⟩
      have below : ∀ c, F.parent c = some (.node p l r) → (0, c) ∉ s.diff := fun c hc hmem =>
        hdiff (h.closed _ hmem (0, .node p l r) (parentOf_eq_some.2 ⟨F, h₀, rfl, hc⟩))
      by_cases hlP : l ∈ P
      · by_cases hrP : r ∈ P
        · refine ⟨l, ?_, r, hrP, (Forest.sibling_eq_some_iff hd).2 ⟨p, Or.inl hv⟩⟩
          by_contra hlQ
          rcases h.climbed l hlP hlQ with hL | ⟨q, hq, hqP⟩
          · exact hdiff (h.maximal l hL _ hpl)
          · exact hvP (Option.some.inj (hpl.symm.trans hq) ▸ hqP)
        · exact ihr hr hrP (below r hpr)
      · exact ihl hl hlP (below l hpl)

/-- **Some tuple of the queue does not wait.** -/
theorem Search.Inv.exists_decided (h : s.Inv forests F P Q L) (hQ : s.queue ≠ []) :
    ∃ before t after, s.queue = before ++ t :: after ∧ ¬Waits forests s t := by
  by_contra hno
  push Not at hno
  have hall : ∀ t ∈ s.queue, Waits forests s t := fun t ht => by
    obtain ⟨before, after, hqueue⟩ := List.append_of_mem ht
    exact hno before t after hqueue
  -- the siblings of a tuple that waits start with that of the first forest
  have hsibling : ∀ v ∈ Q, ∃ sib, F.sibling v = some sib ∧ sib ∉ P ∧ (0, sib) ∉ s.diff := fun v hv => by
    have hvF := (h.common v (h.queued v (List.mem_append_left _ hv))).1
    obtain ⟨t, ht, htuple⟩ := (Scan.forall₂_mem h.queue).1 v hv
    obtain ⟨siblings, hrun, hseen⟩ := hall t ht
    obtain ⟨ts, rfl⟩ := htuple.eq_cons hI h₀ hvF
    obtain ⟨⟨i, sib⟩, hb, hvb⟩ := (Scan.mapM_mem hrun).1 (0, v) (List.mem_cons_self ..)
    obtain ⟨G, hG, rfl, hsib⟩ := siblingOf_eq_some.1 hvb
    obtain rfl := Option.some.inj (h₀.symm.trans hG)
    obtain ⟨-, -, -, -, -, hsibF, -⟩ := Forest.exists_of_sibling (hI.distinct h₀) hsib
    exact ⟨sib, hsib, fun hP => (hseen _ hb).1 ((h.mem_identical_iff hI h₀ hsibF (occurs_zero h₀ hsibF)).2 hP),
      (hseen _ hb).2⟩
  obtain ⟨t, ht⟩ := List.exists_mem_of_ne_nil _ hQ
  obtain ⟨v, hv, -⟩ := (Scan.forall₂_mem h.queue).2 t ht
  obtain ⟨sib, hsib, hsibP, hdiff⟩ := hsibling v hv
  obtain ⟨-, -, -, -, -, hsibF, -⟩ := Forest.exists_of_sibling (hI.distinct h₀) hsib
  obtain ⟨c, hc, sib', hsibP', hcsib⟩ := h.exists_queued hI h₀ hsibF hsibP hdiff
  obtain ⟨sib'', hcsib', hno', -⟩ := hsibling c hc
  exact hno' (Option.some.inj (hcsib.symm.trans hcsib') ▸ hsibP')

/-- **The queue empties**: rounds that decide a tuple leave less to do, and a tuple that
waits brings the first one that does not closer. -/
theorem run_spec (fuel : ℕ) (hsize : ∀ n, IsNode forests n → n.2.subtrees.length ≤ size) (hdepth : size < depth)
    (h : s.Inv forests F P Q L)
    (hfuel : s.queue = [] ∧ 0 < fuel ∨ ∃ before t after, s.queue = before ++ t :: after ∧ ¬Waits forests s t ∧
      measure F P Q * (F.subtrees.length + 1) + before.length < fuel) :
    ∃ s' P' L', run width forests depth fuel s = some s' ∧ s'.Inv forests F P' [] L' := by
  induction fuel generalizing s P Q L with
  | zero =>
      rcases hfuel with ⟨-, hpos⟩ | ⟨_, _, _, _, _, hlt⟩
      · exact absurd hpos (lt_irrefl 0)
      · exact absurd hlt (Nat.not_lt_zero _)
  | succ fuel ih =>
      rcases hfuel with ⟨hnil, -⟩ | ⟨before, t, after, hqueue, hwaits, hlt⟩
      · have hQ := h.queue
        rw [hnil, List.forall₂_nil_right_iff] at hQ
        exact ⟨s, P, L, by simp only [run, hnil], hQ ▸ h⟩
      · obtain ⟨t₀, queue, hcons⟩ : ∃ t₀ queue, s.queue = t₀ :: queue := by
          cases before with
          | nil => exact ⟨t, after, hqueue⟩
          | cons t₀ before => exact ⟨t₀, before ++ t :: after, hqueue⟩
        obtain ⟨v, Q', -, -, hQ⟩ := List.forall₂_cons_right_iff.1 (hcons ▸ h.queue)
        subst hQ
        obtain ⟨s', hrun, hcase⟩ := h.visit hI h₀ hsize hdepth hcons
        simp only [run, hcons, hrun, Option.bind_some]
        rcases hcase with ⟨hw, rfl⟩ | ⟨-, P', Q'', L', hinv, hless⟩
        · refine ih (h.requeue hcons) (Or.inr ?_)
          cases before with
          | nil =>
              obtain ⟨rfl, -⟩ := List.cons.inj (hcons.symm.trans hqueue)
              exact absurd hw hwaits
          | cons t₁ before =>
              obtain ⟨rfl, rfl⟩ := List.cons.inj (hcons.symm.trans hqueue)
              refine ⟨before, t, after ++ [t₀], by simp, hwaits, ?_⟩
              have hmeasure : measure F P (Q' ++ [v]) = measure F P (v :: Q') := by simp [measure]
              rw [hmeasure]
              rw [List.length_cons] at hlt
              omega
        · refine ih hinv ?_
          have hmul : (measure F P' Q'' + 1) * (F.subtrees.length + 1) ≤
              measure F P (v :: Q') * (F.subtrees.length + 1) :=
            Nat.mul_le_mul_right _ hless
          rw [Nat.add_mul, Nat.one_mul] at hmul
          by_cases hnil : s'.queue = []
          · exact Or.inl ⟨hnil, by omega⟩
          · obtain ⟨before', t', after', hqueue', hwaits'⟩ := hinv.exists_decided hI h₀ hnil
            have hlen := hinv.queue.length_eq
            have := hinv.length_le
            rw [hqueue', List.length_append, List.length_cons] at hlen
            exact Or.inr ⟨before', t', after', hqueue', hwaits', by omega⟩

/-- **At the end the maximal common subtrees are found.** -/
theorem Search.Inv.mem_iff (h : s.Inv forests F P [] L) (v : Tree) : v ∈ L ↔ IsMaximalCommon F forests v := by
  have hd := hI.distinct h₀
  have uncommon : ∀ v ∈ L, ∀ p, F.parent v = some p → ¬IsCommon F forests p := fun v hv p hp hcom =>
    h.diff _ (h.maximal v hv p hp) p hcom (occurs_zero h₀ hcom.1)
  have hP : ∀ v, IsCommon F forests v → v ∈ P := fun v hv => by
    induction v with
    | leaf p x m => exact h.terminal _ hv.1 rfl
    | node p l r ihl ihr =>
        have hl : l ∈ (Tree.node p l r).subtrees :=
          Tree.mem_subtrees_node.2 (Or.inr (Or.inl (Tree.mem_subtrees_self l)))
        have hpl := (Forest.parent_eq_some_iff hd).2 ⟨hv.1, Or.inl rfl⟩
        rcases h.climbed l (ihl (hv.of_mem hl)) List.not_mem_nil with hL | ⟨q, hq, hqP⟩
        · exact absurd hv (uncommon l hL _ hpl)
        · exact Option.some.inj (hpl.symm.trans hq) ▸ hqP
  constructor
  · intro hv
    exact (Forest.isMaximalCommon_iff hd (h.common v (h.queued v hv))).2 (uncommon v hv)
  · intro hv
    rcases h.climbed v (hP v hv.1) List.not_mem_nil with hL | ⟨q, hq, hqP⟩
    · exact hL
    · exact absurd (h.common q hqP) ((Forest.isMaximalCommon_iff hd hv.1).1 hv q hq)

end Rounds

section Fill

variable {width : ℕ} {forests : List Forest} {F : Forest} {v : Tree} {label : Label} {seen : Finset Node}
  {labels : List Label} {Q : List Tree} {s : Search}

/-- **The inner loop collects the terminals of a label**, if none of them was seen. -/
theorem terminalsForLabel_spec (i : ℕ) (seen : Finset Node) {gs : List Forest}
    (hgs : ∀ k G, gs[k]? = some G → forests[i + k]? = some G)
    (hterm : ∀ G ∈ gs, ∃ w ∈ G.subtrees, G.labelToTerminal label = some w ∧ v.Identical w)
    (hfresh : ∀ n, Occurs forests v n → i ≤ n.1 → n ∉ seen) :
    ∃ ts seen', terminalsForLabel label i gs seen = some (ts, seen') ∧ ts.map Prod.fst = List.range' i gs.length ∧
      (∀ n ∈ ts, Occurs forests v n) ∧ ∀ n, n ∈ seen' ↔ n ∈ seen ∨ n ∈ ts := by
  induction gs generalizing i seen with
  | nil => exact ⟨[], seen, rfl, rfl, fun n hn => absurd hn List.not_mem_nil, fun n => by simp⟩
  | cons G gs ih =>
      rw [List.forall_mem_cons] at hterm
      obtain ⟨w, hw, hlabel, hvw⟩ := hterm.1
      have hocc : Occurs forests v (i, w) := ⟨G, hgs 0 G rfl, hw, hvw⟩
      have hgs' : ∀ k H, gs[k]? = some H → forests[i + 1 + k]? = some H := fun k H hk => by
        have := hgs (k + 1) H hk
        rwa [show i + (k + 1) = i + 1 + k by omega] at this
      obtain ⟨ts, seen', hrun, hindices, hall, hmem⟩ := ih (i + 1) (insert (i, w) seen) hgs' hterm.2 fun n hn hle => by
        rw [Finset.mem_insert, not_or]
        refine ⟨?_, hfresh n hn (by omega)⟩
        rintro rfl
        exact absurd hle (Nat.not_succ_le_self i)
      refine ⟨(i, w) :: ts, seen', ?_, ?_, ?_, fun n => ?_⟩
      · simp only [terminalsForLabel, hlabel, Option.bind_eq_bind, Option.bind_some, if_neg (hfresh _ hocc le_rfl),
          hrun]
      · rw [List.map_cons, hindices, List.length_cons, List.range'_succ]
      · exact List.forall_mem_cons.2 ⟨hocc, hall⟩
      · rw [hmem, Finset.mem_insert, List.mem_cons]
        tauto

/-- The state while the queue is filled. -/
structure Search.Filled (forests : List Forest) (F : Forest) (Q : List Tree) (s : Search) : Prop where
  terminal : ∀ v ∈ Q, v ∈ F.subtrees ∧ v.isTerminal = true
  common : ∀ v ∈ Q, IsCommon F forests v
  nodup : Q.Nodup
  queue : List.Forall₂ (IsTuple forests) Q s.queue
  maximum : s.maximum = []
  identical : ∀ n, n ∈ s.identical ↔ ∃ v ∈ Q, Occurs forests v n
  diff : s.diff = ∅

/-- A label queues its terminal, once. -/
theorem pushTerminals_spec (hI : IsInstance width forests) (h₀ : forests[0]? = some F) (h : s.Filled forests F Q)
    (hlabel : F.labelToTerminal label = some v) :
    ∃ s' Q', pushTerminals forests s label = some s' ∧ s'.Filled forests F Q' ∧ v ∈ Q' ∧ ∀ u ∈ Q, u ∈ Q' := by
  have hF := List.mem_of_getElem? h₀
  obtain ⟨hv, hterm, -⟩ := (Forest.labelToTerminal_eq_some_iff (hI.fits F hF).valid).1 hlabel
  have hterms : ∀ G ∈ forests, ∃ w ∈ G.subtrees, G.labelToTerminal label = some w ∧ v.Identical w := fun G hG => by
    obtain ⟨w, hw, hmem, hid⟩ := Cluster.labelToTerminal_sameTerminals (hI.fits F hF).valid (hI.fits G hG).valid
      (hI.same F hF G hG) hlabel
    exact ⟨w, hmem, hw, hid⟩
  have hseen : ∀ n, Occurs forests v n → (n ∈ s.identical ↔ v ∈ Q) := fun n hn => by
    rw [h.identical]
    constructor
    · rintro ⟨w, hw, hwn⟩
      exact hwn.left_unique hI h₀ (h.terminal w hw).1 hv hn ▸ hw
    · exact fun hv => ⟨v, hv, hn⟩
  by_cases hvQ : v ∈ Q
  · obtain ⟨G, gs, rfl⟩ : ∃ G gs, forests = G :: gs := by
      cases forests with
      | nil => cases h₀
      | cons G gs => exact ⟨G, gs, rfl⟩
    obtain rfl := Option.some.inj h₀
    refine ⟨s, Q, ?_, h, hvQ, fun u hu => hu⟩
    simp only [pushTerminals, terminalsForLabel, hlabel, Option.bind_eq_bind, Option.bind_some,
      if_pos ((hseen _ (occurs_zero h₀ hv)).2 hvQ), List.isEmpty_nil, if_true]
  · obtain ⟨ts, seen', hrun, hindices, hall, hmem⟩ := terminalsForLabel_spec 0 s.identical
      (fun k G hk => by rwa [Nat.zero_add]) hterms fun n hn _ => fun hmem => hvQ ((hseen n hn).1 hmem)
    have htuple : IsTuple forests v ts := ⟨hindices.trans (List.range_eq_range' ..).symm, hall⟩
    obtain ⟨ts', rfl⟩ := htuple.eq_cons hI h₀ hv
    refine ⟨{ s with queue := s.queue ++ [(0, v) :: ts'], identical := seen' }, Q ++ [v],
      by rw [pushTerminals, hrun]; rfl, ⟨?_, ?_, ?_, ?_, h.maximum, fun n => ?_, h.diff⟩, by simp,
      fun u hu => List.mem_append_left _ hu⟩
    · simpa [or_imp, forall_and] using ⟨⟨fun u hu => (h.terminal u hu).1, hv⟩, fun u hu => (h.terminal u hu).2, hterm⟩
    · intro u hu
      rcases List.mem_append.1 hu with hu | hu
      · exact h.common u hu
      · rw [List.mem_singleton.1 hu]
        exact ⟨hv, fun G hG => (hterms G hG).imp fun w hw => ⟨hw.1, hw.2.2⟩⟩
    · exact (List.perm_append_singleton v Q).nodup_iff.2 (List.nodup_cons.2 ⟨hvQ, h.nodup⟩)
    · exact List.rel_append h.queue (.cons htuple .nil)
    · rw [hmem, h.identical]
      constructor
      · rintro (⟨u, hu, hun⟩ | hn)
        · exact ⟨u, List.mem_append_left _ hu, hun⟩
        · exact ⟨v, by simp, hall n hn⟩
      · rintro ⟨u, hu, hun⟩
        rcases List.mem_append.1 hu with hu | hu
        · exact Or.inl ⟨u, hu, hun⟩
        · rw [List.mem_singleton.1 hu] at hun
          exact Or.inr (htuple.mem_of_occurs hI hun)

/-- The terminals of all labels are put into the queue. -/
theorem fill_step (hI : IsInstance width forests) (h₀ : forests[0]? = some F) (h : s.Filled forests F Q)
    (hlabels : ∀ x ∈ labels, (F.labelToTerminal x).isSome) :
    ∃ s' Q', labels.foldlM (pushTerminals forests) s = some s' ∧ s'.Filled forests F Q' ∧ (∀ u ∈ Q, u ∈ Q') ∧
      ∀ x ∈ labels, ∀ v, F.labelToTerminal x = some v → v ∈ Q' := by
  induction labels generalizing s Q with
  | nil => exact ⟨s, Q, rfl, h, fun u hu => hu, fun x hx => absurd hx List.not_mem_nil⟩
  | cons x labels ih =>
      rw [List.forall_mem_cons] at hlabels
      obtain ⟨v, hv⟩ := Option.isSome_iff_exists.1 hlabels.1
      obtain ⟨s₁, Q₁, hrun₁, h₁, hvQ, hsub₁⟩ := pushTerminals_spec hI h₀ h hv
      obtain ⟨s₂, Q₂, hrun₂, h₂, hsub₂, hall⟩ := ih h₁ hlabels.2
      refine ⟨s₂, Q₂, by rw [List.foldlM_cons, hrun₁]; exact hrun₂, h₂, fun u hu => hsub₂ u (hsub₁ u hu), ?_⟩
      rw [List.forall_mem_cons]
      exact ⟨fun u hu => hsub₂ u (Option.some.inj (hv.symm.trans hu) ▸ hvQ), hall⟩

/-- **The search starts with the terminals.** -/
theorem fill_spec (hI : IsInstance width forests) (h₀ : forests[0]? = some F)
    (hlabels : ∀ x, x ∈ labels ↔ (F.labelToTerminal x).isSome) :
    ∃ s P Q, fill forests labels = some s ∧ s.Inv forests F P Q [] := by
  have hempty : Search.Filled forests F [] ⟨[], [], ∅, ∅⟩ :=
    ⟨by simp, by simp, List.nodup_nil, .nil, rfl, by simp, rfl⟩
  obtain ⟨s, Q, hrun, h, -, hall⟩ := fill_step hI h₀ hempty fun x hx => (hlabels x).1 hx
  have hmaximum : List.Forall₂ (IsTuple forests) [] s.maximum := h.maximum ▸ .nil
  refine ⟨s, Q.toFinset, Q, hrun, ⟨fun v hv => h.common v (List.mem_toFinset.1 hv), fun v hv hterm => ?_, h.queue,
    hmaximum,
    by rw [List.append_nil]; exact h.nodup, fun v hv => by simpa using hv, fun v hv => absurd hv List.not_mem_nil,
    fun v hv hno => absurd (List.mem_toFinset.1 hv) hno, fun n => by simp [h.identical], ?_, ?_⟩⟩
  · have hx := (Forest.labelToTerminal_eq_some_iff (hI.fits F (List.mem_of_getElem? h₀)).valid).2
      ⟨hv, hterm, Tree.labels_subset_subtreeTerminals v v.least_mem_labels⟩
    exact List.mem_toFinset.2 (hall _ ((hlabels _).2 (by rw [hx]; rfl)) v hx)
  · rw [h.diff]
    exact fun n hn => absurd hn (Finset.notMem_empty n)
  · rw [h.diff]
    exact fun n hn => absurd hn (Finset.notMem_empty n)

end Fill

section Result

variable {width : ℕ} {forests : List Forest} {F G : Forest} {v : Tree} {labels : List Label} {t : List Node}
  {L roots : List Tree} {maximum : List (List Node)} {i : ℕ}

/-- A node with two terminals. -/
def IsCherry : Tree → Prop
  | .leaf .. => False
  | .node _ l r => l.isTerminal = true ∧ r.isTerminal = true

/-- The lists name the maximal common subtrees with two or more leaves of each forest, each
once and in one order. -/
structure IsReduction (forests : List Forest) (lists : List (ℕ × List Tree)) : Prop where
  indices : lists.map Prod.fst = List.range forests.length
  nodup : ∀ p ∈ lists, p.2.Nodup
  mem_iff : ∀ p ∈ lists, ∀ G, forests[p.1]? = some G → ∀ v, v ∈ p.2 ↔ IsMaximalCommon G forests v ∧ v.isTerminal = false
  aligned : ∀ p ∈ lists, ∀ q ∈ lists, List.Forall₂ Tree.Identical p.2 q.2

/-- A tree with two or more leaves has a cherry. -/
theorem exists_isCherry (t : Tree) (ht : t.isTerminal = false) : ∃ c ∈ t.subtrees, IsCherry c := by
  induction t with
  | leaf => cases ht
  | node p l r ihl ihr =>
      cases hl : l.isTerminal with
      | false =>
          obtain ⟨c, hc, hcherry⟩ := ihl hl
          exact ⟨c, Tree.mem_subtrees_node.2 (Or.inr (Or.inl hc)), hcherry⟩
      | true =>
          cases hr : r.isTerminal with
          | false =>
              obtain ⟨c, hc, hcherry⟩ := ihr hr
              exact ⟨c, Tree.mem_subtrees_node.2 (Or.inr (Or.inr hc)), hcherry⟩
          | true => exact ⟨_, Tree.mem_subtrees_self _, hl, hr⟩

/-- What is identical to a cherry is one. -/
theorem IsCherry.identical {c d : Tree} (hc : IsCherry c) (h : c.Identical d) : IsCherry d := by
  cases c with
  | leaf => exact hc.elim
  | node p l r =>
      cases d with
      | leaf => exact h.elim
      | node q l' r' =>
          rcases h with ⟨hl, hr⟩ | ⟨hl, hr⟩
          · exact ⟨hl.isTerminal_eq ▸ hc.1, hr.isTerminal_eq ▸ hc.2⟩
          · exact ⟨hr.isTerminal_eq ▸ hc.2, hl.isTerminal_eq ▸ hc.1⟩

/-- The node of a tuple in the forest `i`. -/
theorem IsTuple.get (ht : IsTuple forests v t) (hG : forests[i]? = some G) :
    ∃ n, t[i]? = some n ∧ n.2 ∈ G.subtrees ∧ v.Identical n.2 := by
  have hlen : t.length = forests.length := by
    have := congrArg List.length ht.indices
    rwa [List.length_map, List.length_range] at this
  have hi : i < t.length := hlen ▸ (List.getElem?_eq_some_iff.1 hG).1
  obtain ⟨H, hH, hmem, hid⟩ := ht.occurs _ (List.getElem_mem hi)
  have hfst : t[i].1 = i := by
    have h : (t.map Prod.fst)[i]? = (List.range forests.length)[i]? := by rw [ht.indices]
    rw [List.getElem?_map, List.getElem?_eq_getElem hi, List.getElem?_range (hlen ▸ hi)] at h
    exact Option.some.inj h
  rw [hfst, hG] at hH
  exact ⟨t[i], List.getElem?_eq_getElem hi, Option.some.inj hH ▸ hmem, hid⟩

/-- The list of the forest `i` follows the maximal subtrees of the first forest. -/
theorem subtreesOfForest_spec (h : List.Forall₂ (IsTuple forests) L maximum) (hG : forests[i]? = some G) :
    ∃ nodes, subtreesOfForest maximum i = some nodes ∧
      List.Forall₂ (fun v w => w ∈ G.subtrees ∧ v.Identical w) (L.filter fun n => !n.isTerminal) nodes := by
  obtain ⟨nodes, hrun⟩ := Scan.exists_mapM (f := fun t : List Node => t[i]?) (l := maximum) fun t ht => by
    obtain ⟨v, -, hv⟩ := (Scan.forall₂_mem h).2 t ht
    exact (hv.get hG).imp fun n hn => hn.1
  have hrel : List.Forall₂ (fun v w => w ∈ G.subtrees ∧ v.Identical w) L (nodes.map Prod.snd) := by
    rw [List.forall₂_map_right_iff]
    replace hrun := Scan.mapM_eq_some_iff.1 hrun
    induction h generalizing nodes with
    | nil =>
        cases hrun
        exact .nil
    | cons htuple _ ih =>
        obtain ⟨n, ns, hn, hns, rfl⟩ := List.forall₂_cons_left_iff.1 hrun
        obtain ⟨m, hm, hmem, hid⟩ := htuple.get hG
        obtain rfl := Option.some.inj (hn.symm.trans hm)
        exact .cons ⟨hmem, hid⟩ (ih ns hns)
  refine ⟨_, by rw [subtreesOfForest, hrun]; rfl, List.rel_filter (fun v w hvw => ?_) hrel⟩
  simp only [hvw.2.isTerminal_eq]

/-- Nodes of a forest that follow the maximal common subtrees are its own ones. -/
theorem isReduction_of_forall₂ (hI : IsInstance width forests) (h₀ : forests[0]? = some F) (hnodup : roots.Nodup)
    (hroots : ∀ v, v ∈ roots ↔ IsMaximalCommon F forests v ∧ v.isTerminal = false) {lists : List (ℕ × List Tree)}
    (hindices : lists.map Prod.fst = List.range forests.length)
    (hlists : ∀ p ∈ lists, ∀ G, forests[p.1]? = some G →
      List.Forall₂ (fun v w => w ∈ G.subtrees ∧ v.Identical w) roots p.2) : IsReduction forests lists := by
  have hF := List.mem_of_getElem? h₀
  have hd := hI.distinct h₀
  have hget : ∀ p ∈ lists, ∃ G, forests[p.1]? = some G := fun p hp => by
    have : p.1 ∈ List.range forests.length := hindices ▸ List.mem_map_of_mem hp
    exact ⟨_, List.getElem?_eq_getElem (List.mem_range.1 this)⟩
  refine ⟨hindices, fun p hp => ?_, fun p hp G hG w => ?_, fun p hp q hq => ?_⟩
  · obtain ⟨G, hG⟩ := hget p hp
    have hrel := hlists p hp G hG
    have hleft : ∀ v ∈ roots, v ∈ F.subtrees := fun v hv => ((hroots v).1 hv).1.1.1
    clear hroots hlists
    generalize p.2 = nodes at hrel
    induction hrel with
    | nil => exact List.nodup_nil
    | @cons v w roots nodes hvw hrest ih =>
        rw [List.forall_mem_cons] at hleft
        rw [List.nodup_cons] at hnodup
        refine List.nodup_cons.2 ⟨fun hmem => ?_, ih hnodup.2 hleft.2⟩
        obtain ⟨u, hu, -, huw⟩ := (Scan.forall₂_mem hrest).2 w hmem
        exact hnodup.1 (Forest.eq_of_identical hd (hleft.2 u hu) hleft.1 (huw.trans hvw.2.symm) ▸ hu)
  · have hrel := hlists p hp G hG
    have hGmem := List.mem_of_getElem? hG
    have hdG := hI.distinct hG
    constructor
    · intro hw
      obtain ⟨v, hv, hwG, hvw⟩ := (Scan.forall₂_mem hrel).2 w hw
      obtain ⟨hmax, hinner⟩ := (hroots v).1 hv
      exact ⟨hmax.counterpart hd hdG hF hGmem hwG hvw, hvw.isTerminal_eq ▸ hinner⟩
    · rintro ⟨hmax, hinner⟩
      obtain ⟨v, hwv, hvcom⟩ := hmax.1.counterpart hF
      have hv : v ∈ roots := (hroots v).2 ⟨hmax.counterpart hdG hd hGmem hF hvcom.1 hwv, hwv.isTerminal_eq ▸ hinner⟩
      obtain ⟨w', hw', hw'G, hvw'⟩ := (Scan.forall₂_mem hrel).1 v hv
      exact Forest.eq_of_identical hdG hmax.1.1 hw'G (hwv.trans hvw') ▸ hw'
  · obtain ⟨G, hG⟩ := hget p hp
    obtain ⟨H, hH⟩ := hget q hq
    have h₁ := hlists p hp G hG
    have h₂ := hlists q hq H hH
    clear hnodup hroots hlists
    generalize p.2 = nodes at h₁
    generalize q.2 = nodes' at h₂
    induction h₁ generalizing nodes' with
    | nil =>
        cases h₂
        exact .nil
    | cons hvw _ ih =>
        obtain ⟨w', ws, hvw', hrest, rfl⟩ := List.forall₂_cons_left_iff.1 h₂
        exact .cons (hvw.2.symm.trans hvw'.2) (ih ws hrest)

/-- **A common cherry is what makes a maximal common subtree with two leaves.** -/
theorem exists_cherry_iff (hI : IsInstance width forests) (h₀ : forests[0]? = some F) :
    (∃ G ∈ forests, ∃ c, IsCommon G forests c ∧ IsCherry c) ↔
      ∃ v, IsMaximalCommon F forests v ∧ v.isTerminal = false := by
  constructor
  · rintro ⟨G, hG, c, hc, hcherry⟩
    obtain ⟨d, hcd, hd⟩ := hc.counterpart (List.mem_of_getElem? h₀)
    obtain ⟨v, hv, hdv⟩ := hd.exists_maximal (hI.distinct h₀)
    refine ⟨v, hv, ?_⟩
    cases v with
    | node => rfl
    | leaf p x m =>
        obtain rfl := List.mem_singleton.1 hdv
        exact (hcherry.identical hcd).elim
  · rintro ⟨v, hv, hinner⟩
    obtain ⟨c, hc, hcherry⟩ := exists_isCherry v hinner
    exact ⟨F, List.mem_of_getElem? h₀, c, hv.1.of_mem hc, hcherry⟩

/-- **`SubtreeReductionRule::isApplicable` ends**, returns a null pointer exactly when the
forests share no cherry, and otherwise the maximal common subtrees with two or more leaves. -/
theorem isApplicable_maximalSubtrees (hI : IsInstance width forests) (h₀ : forests[0]? = some F)
    (hlabels : ∀ x, x ∈ labels ↔ (F.labelToTerminal x).isSome) :
    ∃ bound, ∀ fuel, bound ≤ fuel → ∃ r, isApplicable width fuel labels forests = some r ∧
      (r = none ↔ ¬∃ G ∈ forests, ∃ c, IsCommon G forests c ∧ IsCherry c) ∧
      ∀ lists, r = some lists → IsReduction forests lists := by
  obtain ⟨s, P, Q, hfill, hinv⟩ := fill_spec hI h₀ hlabels
  let size := (forests.map fun G => G.subtrees.length).sum
  have hsize : ∀ n, IsNode forests n → n.2.subtrees.length ≤ size := fun n ⟨G, hG, hn⟩ =>
    (Forest.length_subtrees_le hn).trans
      (List.le_sum_of_mem (List.mem_map_of_mem (f := fun G : Forest => G.subtrees.length) (List.mem_of_getElem? hG)))
  refine ⟨size + measure F P Q * (F.subtrees.length + 1) + s.queue.length + 1, fun fuel hfuel => ?_⟩
  obtain ⟨s', P', L, hrun, hend⟩ := run_spec hI h₀ fuel hsize (by omega : size < fuel) hinv (by
    by_cases hnil : s.queue = []
    · exact Or.inl ⟨hnil, by omega⟩
    · obtain ⟨before, t, after, hqueue, hwaits⟩ := hinv.exists_decided hI h₀ hnil
      refine Or.inr ⟨before, t, after, hqueue, hwaits, ?_⟩
      have := congrArg List.length hqueue
      rw [List.length_append, List.length_cons] at this
      omega)
  have hL : ∀ v, v ∈ L ↔ IsMaximalCommon F forests v := hend.mem_iff hI h₀
  have hroots : ∀ v, v ∈ L.filter (fun n => !n.isTerminal) ↔ IsMaximalCommon F forests v ∧ v.isTerminal = false :=
    fun v => by rw [List.mem_filter, hL, Bool.not_eq_true']
  have hnodup : (L.filter fun n => !n.isTerminal).Nodup := hend.nodup.filter _
  have hcherry := exists_cherry_iff hI h₀
  simp only [← hroots] at hcherry
  have hempty : L.filter (fun n => !n.isTerminal) = [] → ¬∃ G ∈ forests, ∃ c, IsCommon G forests c ∧ IsCherry c :=
    fun hnil h => by
      obtain ⟨v, hv⟩ := hcherry.1 h
      rw [hnil] at hv
      cases hv
  simp only [isApplicable, if_neg (by have := hI.two; omega : ¬forests.length ≤ 1), hfill, hrun, Option.bind_eq_bind,
    Option.bind_some]
  by_cases hmaximum : s'.maximum.isEmpty = true
  · rw [if_pos hmaximum]
    have hLnil : L = [] := by
      have := hend.maximum
      rwa [List.isEmpty_iff.1 hmaximum, List.forall₂_nil_right_iff] at this
    exact ⟨none, rfl, ⟨fun _ => hempty (by rw [hLnil]; rfl), fun _ => rfl⟩, fun lists h => by cases h⟩
  · obtain ⟨lists, hlists⟩ := Scan.exists_mapM (l := List.range forests.length)
      (f := fun i => (subtreesOfForest s'.maximum i).map fun l => (i, l)) fun i hi => by
        obtain ⟨nodes, hnodes, -⟩ := subtreesOfForest_spec hend.maximum
          (List.getElem?_eq_getElem (List.mem_range.1 hi))
        exact ⟨(i, nodes), by rw [hnodes]; rfl⟩
    have hindices : lists.map Prod.fst = List.range forests.length := by
      rw [Scan.map_mapM (g := id) (fun i p hp => ?_) hlists, List.map_id]
      obtain ⟨l, -, rfl⟩ := Option.map_eq_some_iff.1 hp
      rfl
    have hrel : ∀ p ∈ lists, ∀ G, forests[p.1]? = some G →
        List.Forall₂ (fun v w => w ∈ G.subtrees ∧ v.Identical w) (L.filter fun n => !n.isTerminal) p.2 :=
            fun p hp G hG => by
      obtain ⟨i, -, hi⟩ := (Scan.mapM_mem hlists).2 p hp
      obtain ⟨l, hl, rfl⟩ := Option.map_eq_some_iff.1 hi
      obtain ⟨nodes, hnodes, hnodesrel⟩ := subtreesOfForest_spec hend.maximum hG
      exact Option.some.inj (hnodes.symm.trans hl) ▸ hnodesrel
    have hlength : ∀ p ∈ lists, p.2.length = (L.filter fun n => !n.isTerminal).length := fun p hp => by
      have : p.1 ∈ List.range forests.length := hindices ▸ List.mem_map_of_mem hp
      exact (hrel p hp _ (List.getElem?_eq_getElem (List.mem_range.1 this))).length_eq.symm
    rw [if_neg hmaximum]
    simp only [hlists, Option.bind_some]
    cases hnil : L.filter fun n => !n.isTerminal with
    | nil =>
        have hfilter : (lists.filter fun p => !p.2.isEmpty) = [] := List.filter_eq_nil_iff.2 fun p hp => by
          have := hlength p hp
          rw [hnil] at this
          simpa using this
        rw [hfilter]
        exact ⟨none, rfl, ⟨fun _ => hempty hnil, fun _ => rfl⟩, fun lists h => by cases h⟩
    | cons v roots =>
        have hfilter : (lists.filter fun p => !p.2.isEmpty) = lists := List.filter_eq_self.2 fun p hp => by
          have := hlength p hp
          rw [hnil, List.length_cons] at this
          cases hp₂ : p.2 with
          | nil => rw [hp₂] at this; cases this
          | cons => rfl
        have hne : ¬lists.isEmpty = true := fun h => by
          have hlen := congrArg List.length hindices
          rw [List.isEmpty_iff.1 h, List.map_nil, List.length_nil, List.length_range] at hlen
          have := hI.two
          omega
        rw [hfilter, if_neg hne]
        have hshared : ∃ G ∈ forests, ∃ c, IsCommon G forests c ∧ IsCherry c :=
          hcherry.2 ⟨v, by rw [hnil]; exact List.mem_cons_self ..⟩
        refine ⟨some lists, rfl, ⟨fun h => (Option.some_ne_none lists h).elim, fun h => absurd hshared h⟩,
          fun lists' h => ?_⟩
        obtain rfl := Option.some.inj h
        exact isReduction_of_forall₂ hI h₀ hnodup hroots hindices hrel

/-- Two trees that share the cherry over `1` and `2`. -/
theorem isApplicable_maximalSubtrees_threeLeaves :
    ∃ bound, ∀ fuel, bound ≤ fuel → ∃ r, isApplicable 1 fuel
        (Cluster.labelKeys [.node 0 (.node 1 (.leaf 2 1 ∅) (.leaf 3 2 ∅)) (.leaf 4 3 ∅)])
        [[.node 0 (.node 1 (.leaf 2 1 ∅) (.leaf 3 2 ∅)) (.leaf 4 3 ∅)],
          [.node 0 (.leaf 1 1 ∅) (.leaf 2 2 ∅), .leaf 3 3 ∅]] = some r ∧
      (r = none ↔ ¬∃ G ∈ [[.node 0 (.node 1 (.leaf 2 1 ∅) (.leaf 3 2 ∅)) (.leaf 4 3 ∅)],
          [.node 0 (.leaf 1 1 ∅) (.leaf 2 2 ∅), .leaf 3 3 ∅]], ∃ c, IsCommon G
        [[.node 0 (.node 1 (.leaf 2 1 ∅) (.leaf 3 2 ∅)) (.leaf 4 3 ∅)],
          [.node 0 (.leaf 1 1 ∅) (.leaf 2 2 ∅), .leaf 3 3 ∅]] c ∧ IsCherry c) ∧
      ∀ lists, r = some lists → IsReduction [[.node 0 (.node 1 (.leaf 2 1 ∅) (.leaf 3 2 ∅)) (.leaf 4 3 ∅)],
        [.node 0 (.leaf 1 1 ∅) (.leaf 2 2 ∅), .leaf 3 3 ∅]] lists := by
  have hI : IsInstance 1 [[.node 0 (.node 1 (.leaf 2 1 ∅) (.leaf 3 2 ∅)) (.leaf 4 3 ∅)],
      [.node 0 (.leaf 1 1 ∅) (.leaf 2 2 ∅), .leaf 3 3 ∅]] := by
    refine ⟨by decide, fun F hF => ?_, fun F hF G hG => ?_⟩
    · simp only [List.mem_cons, List.not_mem_nil, or_false] at hF
      rcases hF with rfl | rfl
      · exact ⟨by decide, by decide⟩
      · exact ⟨by decide, by decide⟩
    · simp only [List.mem_cons, List.not_mem_nil, or_false] at hF hG
      rcases hF with rfl | rfl <;> rcases hG with rfl | rfl <;>
        simp [SameTerminals, Forest.subtrees, Tree.subtrees, exists_or]
  exact isApplicable_maximalSubtrees hI rfl (Cluster.isKeys_labelKeys [_] _ (List.mem_cons_self ..))

end Result

end Maf.SubtreeReductionRule
