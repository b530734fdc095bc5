/-
# Constraints of the incremental solver

The members of `IncrementalMAFSolver` and the two functions that add constraints,
`generateTripleConstraint` and `generatePathPairConstraint`.  A constraint is the
set of edges of which at least one has to be cut: the paths between three leaves
with different topologies, or two paths that share an edge in the second tree only.
The sorted labels of a constraint are its key, and a key is never added twice.

Every agreement forest cuts an edge of every such constraint (`sound_tripleClause`,
`sound_pairClause`).  The key determines the constraint: for triples the labels are
all that matters (`tripleClause_congr`), for pairs because at most one pairing of
four labels has paths without a common edge (`pairClause_congr`).  So a constraint
that is refused for its key is there already (`Invariant.generateTriple`,
`Invariant.generatePathPair`).
-/

import Maf.ILP.CutSet

namespace Maf.ILP

/-- The edges between three leaves of `T`. -/
def tripleClause (T : Forest) (x y z : Label) : Finset ℕ :=
  pathEdges T x y ∪ pathEdges T y z ∪ pathEdges T x z

/-- The edges of two paths of `T`. -/
def pairClause (T : Forest) (p q r s : Label) : Finset ℕ := pathEdges T p q ∪ pathEdges T r s

/-- One of the edges `E` is in the constraint. -/
def Hits (E : List ℕ) (c : Finset ℕ) : Prop := ∃ e ∈ E, e ∈ c

instance (E : List ℕ) (c : Finset ℕ) : Decidable (Hits E c) := inferInstanceAs (Decidable (∃ e ∈ E, e ∈ c))

/-- The edges `E` of `T` lie between the blocks of `P`. -/
def CutsInto (T : Forest) (E : List ℕ) (P : Finset (Finset Label)) : Prop :=
  ∀ x ∈ T.labels, ∀ y ∈ T.labels, (¬∃ B ∈ P, x ∈ B ∧ y ∈ B) → Cut T E x y

/-- **A constraint all agreement forests satisfy.** -/
def Sound (T₁ T₂ : Forest) (c : Finset ℕ) : Prop :=
  ∀ P E, AgreementForest [T₁, T₂] P → CutsInto T₁ E P → Hits E c

section Clauses

variable {T T₁ T₂ : Forest} {E : List ℕ} {x y z p q r s p' q' r' s' : Label}

/-- A path is hit when it is cut. -/
theorem exists_mem_pathEdges : Hits E (pathEdges T x y) ↔ Cut T E x y := by
  constructor
  · rintro ⟨e, he, hpath⟩
    obtain ⟨v, hv, hsep, rfl⟩ := mem_pathEdges.1 hpath
    exact ⟨v, hv, he, hsep⟩
  · rintro ⟨v, hv, he, hsep⟩
    exact ⟨_, he, mem_pathEdges.2 ⟨v, hv, hsep, rfl⟩⟩

/-- A union of edges is hit in one of its parts. -/
theorem hits_union {c d : Finset ℕ} : Hits E (c ∪ d) ↔ Hits E c ∨ Hits E d := by
  simp only [Hits, Finset.mem_union, and_or_left, exists_or]

/-- The clause of a triple is hit when one of its paths is cut. -/
theorem hits_tripleClause :
    Hits E (tripleClause T x y z) ↔ Cut T E x y ∨ Cut T E y z ∨ Cut T E x z := by
  rw [tripleClause, hits_union, hits_union, exists_mem_pathEdges, exists_mem_pathEdges, exists_mem_pathEdges,
    or_assoc]

/-- The clause of two paths is hit when one of them is cut. -/
theorem hits_pairClause : Hits E (pairClause T p q r s) ↔ Cut T E p q ∨ Cut T E r s := by
  rw [pairClause, hits_union, exists_mem_pathEdges, exists_mem_pathEdges]

/-- An edge is between three leaves when it separates two of them. -/
theorem mem_tripleClause {i : ℕ} : i ∈ tripleClause T x y z ↔
    ∃ a ∈ ({x, y, z} : Finset Label), ∃ b ∈ ({x, y, z} : Finset Label), i ∈ pathEdges T a b := by
  have hself : ∀ a, i ∉ pathEdges T a a := fun a h => by
    obtain ⟨v, -, hsep, -⟩ := mem_pathEdges.1 h
    exact hsep Iff.rfl
  simp only [tripleClause, Finset.mem_union, Finset.mem_insert, Finset.mem_singleton, exists_eq_or_imp,
    exists_eq_left, hself, pathEdges_comm T y x, pathEdges_comm T z x, pathEdges_comm T z y]
  tauto

/-- The clause of a triple does not depend on the order. -/
theorem tripleClause_congr {x' y' z' : Label} (h : ({x, y, z} : Finset Label) = {x', y', z'}) :
    tripleClause T x y z = tripleClause T x' y' z' := by
  ext i
  rw [mem_tripleClause, mem_tripleClause, h]

/-- The path between two labels does not depend on their order. -/
theorem pathEdges_congr (h : ({p, q} : Finset Label) = {p', q'}) : pathEdges T p q = pathEdges T p' q' := by
  have key : ∀ {a b}, tripleClause T a b b = pathEdges T a b := by
    intro a b
    ext i
    have hself : i ∉ pathEdges T b b := fun h => by
      obtain ⟨v, -, hsep, -⟩ := mem_pathEdges.1 h
      exact hsep Iff.rfl
    simp only [tripleClause, Finset.mem_union, hself]
    tauto
  rw [← key, ← key]
  exact tripleClause_congr (by simpa using h)

/-- **Four labels have one constraint**: at most one pairing has paths without a
common edge. -/
theorem pairClause_congr (hT : T.Distinct) {t : Tree} (ht : t ∈ T) (h : FourLabels p q r s)
    (h' : FourLabels p' q' r' s') (hQ : ({p, q, r, s} : Finset Label) = {p', q', r', s'})
    (hQt : ({p, q, r, s} : Finset Label) ⊆ t.labels) (hdis : PathsDisjoint T.clusters p q r s)
    (hdis' : PathsDisjoint T.clusters p' q' r' s') : pairClause T p q r s = pairClause T p' q' r' s' := by
  have hX : t.labels ∈ T.clusters := Forest.mem_clusters.2 ⟨t, ht, t.labels_mem_clusters⟩
  unfold pairClause
  rcases pairing_unique (Forest.hierarchy hT) hX h h' hQ hQt hdis hdis' with ⟨h₁, h₂⟩ | ⟨h₁, h₂⟩
  · rw [pathEdges_congr h₁, pathEdges_congr h₂]
  · rw [pathEdges_congr h₁, pathEdges_congr h₂, Finset.union_comm]

/-- Labels no edge is cut between are in one block. -/
theorem CutsInto.eq {β : Type*} {P : Finset (Finset Label)} {f : Label → β} (h : CutsInto T E P)
    (hf : Labels T.labels P f) (hx : x ∈ T.labels) (hy : y ∈ T.labels) (hxy : ¬Cut T E x y) : f x = f y := by
  by_contra hne
  exact hxy (h x hx y hy fun hB => hne ((hf x hx y hy).2 hB))

variable {S : Finset Label} (hI : Instance.Over [T₁, T₂] S)
include hI

/-- **Three leaves with different topologies are never in one block.** -/
theorem sound_tripleClause (hx : x ∈ S) (hy : y ∈ S) (hz : z ∈ S)
    (hc : Conflict T₁.clusters T₂.clusters x y z) : Sound T₁ T₂ (tripleClause T₁ x y z) := by
  intro P E hP hcut
  obtain rfl := hI.labels T₁ (by simp)
  obtain ⟨f, hf, -⟩ := (hP.partition T₁ (by simp)).exists_labels
  obtain ⟨-, hag⟩ := (agreementForest_iff hI hf).1 hP
  rw [hits_tripleClause]
  by_contra hno
  push Not at hno
  have hagree : Agrees T₁.labels T₁.clusters T₂.clusters f :=
    hag.agree _ (by simp [Instance.clusters]) _ (by simp [Instance.clusters])
  exact hagree.not_conflict hx hy hz (hcut.eq hf hx hy hno.1) (hcut.eq hf hy hz hno.2.1) hc

/-- **Two paths that share an edge in the second tree only are never both in
blocks.** -/
theorem sound_pairClause (hS : p ∈ S ∧ q ∈ S ∧ r ∈ S ∧ s ∈ S) (hdis : PathsDisjoint T₁.clusters p q r s)
    (hshare : ¬PathsDisjoint T₂.clusters p q r s) : Sound T₁ T₂ (pairClause T₁ p q r s) := by
  intro P E hP hcut
  obtain rfl := hI.labels T₁ (by simp)
  obtain ⟨f, hf, -⟩ := (hP.partition T₁ (by simp)).exists_labels
  obtain ⟨-, hag⟩ := (agreementForest_iff hI hf).1 hP
  rw [hits_pairClause]
  by_contra hno
  push Not at hno
  refine hshare ?_
  exact IsAgreement.pathsDisjoint (C := T₁.clusters) (D := T₂.clusters)
    (Forest.hierarchy (hI.distinct T₁ (by simp))) hag hS (hcut.eq hf hS.1 hS.2.1 hno.1)
    (hcut.eq hf hS.2.2.1 hS.2.2.2 hno.2) hdis

end Clauses

/-- The members of `IncrementalMAFSolver`. -/
structure IncrementalMAFSolver where
  forestData₁ : ForestData
  forestData₂ : ForestData
  constraints : List (Finset ℕ)
  addedTripleConstraints : Finset (Multiset Label)
  addedPathPairConstraints : Finset (Multiset Label)
  maxConstraintsPerRound : ℤ
  minConstraintsPerRound : ℤ
  currentLB : ℤ

/-- `generateTripleConstraint`. -/
def generateTripleConstraint (label1 label2 label3 : Label) (solver : IncrementalMAFSolver) :
    Option IncrementalMAFSolver :=
  let key : Multiset Label := {label1, label2, label3}
  if key ∈ solver.addedTripleConstraints then some solver
  else
    (getPath label1 label2 solver.forestData₁).bind fun edgesij =>
    (getPath label2 label3 solver.forestData₁).bind fun edgesjk =>
    (getPath label1 label3 solver.forestData₁).map fun edgesik =>
      { solver with
        addedTripleConstraints := insert key solver.addedTripleConstraints
        constraints := solver.constraints ++ [edgesij ∪ edgesjk ∪ edgesik] }

/-- `generatePathPairConstraint`. -/
def generatePathPairConstraint (lpair1 rpair1 lpair2 rpair2 : Label) (solver : IncrementalMAFSolver) :
    Option IncrementalMAFSolver :=
  let key : Multiset Label := {lpair1, rpair1, lpair2, rpair2}
  if key ∈ solver.addedPathPairConstraints then some solver
  else
    (getPath lpair1 rpair1 solver.forestData₁).bind fun edgesij =>
    (getPath lpair2 rpair2 solver.forestData₁).map fun edgespq =>
      { solver with
        addedPathPairConstraints := insert key solver.addedPathPairConstraints
        constraints := solver.constraints ++ [edgesij ∪ edgespq] }

/-- The constraint is that of a triple or of a pair of paths. -/
def IsClause (T : Forest) (c : Finset ℕ) : Prop :=
  (∃ x ∈ T.labels, ∃ y ∈ T.labels, ∃ z ∈ T.labels, c = tripleClause T x y z) ∨
    ∃ p ∈ T.labels, ∃ q ∈ T.labels, ∃ r ∈ T.labels, ∃ s ∈ T.labels, c = pairClause T p q r s

/-- **What holds of the solver between any two of its steps**, as long as the first
tree is not cut. -/
structure Invariant (T₁ T₂ : Forest) (solver : IncrementalMAFSolver) : Prop where
  data₁ : solver.forestData₁ = buildForestData T₁
  data₂ : solver.forestData₂ = buildForestData T₂
  triple : ∀ k ∈ solver.addedTripleConstraints, ∃ x ∈ T₁.labels, ∃ y ∈ T₁.labels, ∃ z ∈ T₁.labels,
    k = {x, y, z} ∧ tripleClause T₁ x y z ∈ solver.constraints
  pair : ∀ k ∈ solver.addedPathPairConstraints, ∃ p ∈ T₁.labels, ∃ q ∈ T₁.labels, ∃ r ∈ T₁.labels,
    ∃ s ∈ T₁.labels, k = {p, q, r, s} ∧ FourLabels p q r s ∧ PathsDisjoint T₁.clusters p q r s ∧
      pairClause T₁ p q r s ∈ solver.constraints
  length : solver.constraints.length =
    solver.addedTripleConstraints.card + solver.addedPathPairConstraints.card
  shape : ∀ c ∈ solver.constraints, IsClause T₁ c
  sound : ∀ c ∈ solver.constraints, Sound T₁ T₂ c
  minimum : solver.minConstraintsPerRound = T₁.labels.card

/-- Constraints are only appended, and the bound stays. -/
structure Extends (solver solver' : IncrementalMAFSolver) : Prop where
  constraints : solver.constraints <+: solver'.constraints
  currentLB : solver'.currentLB = solver.currentLB

/-- Nothing is added. -/
theorem Extends.refl (solver : IncrementalMAFSolver) : Extends solver solver :=
  ⟨List.prefix_refl _, rfl⟩

/-- More is added. -/
theorem Extends.trans {s₁ s₂ s₃ : IncrementalMAFSolver} (h : Extends s₁ s₂) (h' : Extends s₂ s₃) :
    Extends s₁ s₃ :=
  ⟨h.constraints.trans h'.constraints, h'.currentLB.trans h.currentLB⟩

section Generate

variable {t₁ : Tree} {T₂ : Forest} {solver : IncrementalMAFSolver} {x y z p q r s : Label}

/-- In one tree `getPath` finds the path. -/
theorem getPath_tree (ht : Forest.Valid [t₁]) (hx : x ∈ t₁.labels) (hy : y ∈ t₁.labels) (hxy : x ≠ y) :
    getPath x y (buildForestData [t₁]) = some (pathEdges [t₁] x y) :=
  getPath_spec ht (List.mem_singleton.2 rfl) hx hy hxy

/-- **The triple's constraint is there afterwards**, whether its key was known or
not. -/
theorem Invariant.generateTriple (ht : Forest.Valid [t₁]) (h : Invariant [t₁] T₂ solver)
    (hxy : x ≠ y) (hxz : x ≠ z) (hyz : y ≠ z) (hx : x ∈ t₁.labels) (hy : y ∈ t₁.labels) (hz : z ∈ t₁.labels)
    (hsound : Sound [t₁] T₂ (tripleClause [t₁] x y z)) :
    ∃ solver', generateTripleConstraint x y z solver = some solver' ∧ Invariant [t₁] T₂ solver' ∧
      Extends solver solver' ∧ tripleClause [t₁] x y z ∈ solver'.constraints := by
  have hS : Forest.labels [t₁] = t₁.labels := by simp
  unfold generateTripleConstraint
  dsimp only
  by_cases hk : ({x, y, z} : Multiset Label) ∈ solver.addedTripleConstraints
  · refine ⟨solver, if_pos hk, h, Extends.refl _, ?_⟩
    obtain ⟨x', -, y', -, z', -, hkey, hc⟩ := h.triple _ hk
    have hset : ({x, y, z} : Finset Label) = {x', y', z'} := by
      have := congrArg Multiset.toFinset hkey
      simpa using this
    rwa [tripleClause_congr hset]
  · rw [if_neg hk, h.data₁, getPath_tree ht hx hy hxy, getPath_tree ht hy hz hyz, getPath_tree ht hx hz hxz]
    have hold : ∀ {c}, c ∈ solver.constraints → c ∈ solver.constraints ++ [tripleClause [t₁] x y z] :=
      fun hc => List.mem_append_left _ hc
    have hnew : tripleClause [t₁] x y z ∈ solver.constraints ++ [tripleClause [t₁] x y z] := by simp
    refine ⟨_, rfl, ⟨rfl, h.data₂, fun k hk' => ?_, fun k hk' => ?_, ?_, fun c hc => ?_, fun c hc => ?_, h.minimum⟩,
      ⟨List.prefix_append .., rfl⟩, hnew⟩
    · rcases Finset.mem_insert.1 hk' with rfl | hk'
      · exact ⟨x, hS ▸ hx, y, hS ▸ hy, z, hS ▸ hz, rfl, hnew⟩
      · obtain ⟨x', hx', y', hy', z', hz', hkey, hc⟩ := h.triple k hk'
        exact ⟨x', hx', y', hy', z', hz', hkey, hold hc⟩
    · obtain ⟨p, hp, q, hq, r, hr, s, hs, hkey, hfour, hdis, hc⟩ := h.pair k hk'
      exact ⟨p, hp, q, hq, r, hr, s, hs, hkey, hfour, hdis, hold hc⟩
    · have := h.length
      simp only [List.length_append, List.length_singleton, Finset.card_insert_of_notMem hk]
      omega
    · rcases List.mem_append.1 hc with hc | hc
      · exact h.shape c hc
      · exact Or.inl ⟨x, hS ▸ hx, y, hS ▸ hy, z, hS ▸ hz, List.mem_singleton.1 hc⟩
    · rcases List.mem_append.1 hc with hc | hc
      · exact h.sound c hc
      · exact List.mem_singleton.1 hc ▸ hsound

/-- **The pair's constraint is there afterwards**, whether its key was known or not. -/
theorem Invariant.generatePathPair (ht : Forest.Valid [t₁]) (h : Invariant [t₁] T₂ solver)
    (hfour : FourLabels p q r s) (hp : p ∈ t₁.labels) (hq : q ∈ t₁.labels) (hr : r ∈ t₁.labels)
    (hs : s ∈ t₁.labels) (hdis : PathsDisjoint (Forest.clusters [t₁]) p q r s)
    (hsound : Sound [t₁] T₂ (pairClause [t₁] p q r s)) :
    ∃ solver', generatePathPairConstraint p q r s solver = some solver' ∧ Invariant [t₁] T₂ solver' ∧
      Extends solver solver' ∧ pairClause [t₁] p q r s ∈ solver'.constraints := by
  have hS : Forest.labels [t₁] = t₁.labels := by simp
  unfold generatePathPairConstraint
  dsimp only
  by_cases hk : ({p, q, r, s} : Multiset Label) ∈ solver.addedPathPairConstraints
  · refine ⟨solver, if_pos hk, h, Extends.refl _, ?_⟩
    obtain ⟨p', hp', q', hq', r', hr', s', hs', hkey, hfour', hdis', hc⟩ := h.pair _ hk
    have hQ : ({p, q, r, s} : Finset Label) = {p', q', r', s'} := by
      have := congrArg Multiset.toFinset hkey
      simpa using this
    rwa [pairClause_congr ht.distinct (List.mem_singleton.2 rfl) hfour hfour' hQ ?_ hdis hdis']
    intro w hw
    simp only [Finset.mem_insert, Finset.mem_singleton] at hw
    rcases hw with rfl | rfl | rfl | rfl <;> assumption
  · rw [if_neg hk, h.data₁, getPath_tree ht hp hq hfour.1, getPath_tree ht hr hs hfour.2.1]
    have hold : ∀ {c}, c ∈ solver.constraints → c ∈ solver.constraints ++ [pairClause [t₁] p q r s] :=
      fun hc => List.mem_append_left _ hc
    have hnew : pairClause [t₁] p q r s ∈ solver.constraints ++ [pairClause [t₁] p q r s] := by simp
    refine ⟨_, rfl, ⟨rfl, h.data₂, fun k hk' => ?_, fun k hk' => ?_, ?_, fun c hc => ?_, fun c hc => ?_, h.minimum⟩,
      ⟨List.prefix_append .., rfl⟩, hnew⟩
    · obtain ⟨x', hx', y', hy', z', hz', hkey, hc⟩ := h.triple k hk'
      exact ⟨x', hx', y', hy', z', hz', hkey, hold hc⟩
    · rcases Finset.mem_insert.1 hk' with rfl | hk'
      · exact ⟨p, hS ▸ hp, q, hS ▸ hq, r, hS ▸ hr, s, hS ▸ hs, rfl, hfour, hdis, hnew⟩
      · obtain ⟨p', hp', q', hq', r', hr', s', hs', hkey, hfour', hdis', hc⟩ := h.pair k hk'
        exact ⟨p', hp', q', hq', r', hr', s', hs', hkey, hfour', hdis', hold hc⟩
    · have := h.length
      simp only [List.length_append, List.length_singleton, Finset.card_insert_of_notMem hk]
      omega
    · rcases List.mem_append.1 hc with hc | hc
      · exact h.shape c hc
      · exact Or.inr ⟨p, hS ▸ hp, q, hS ▸ hq, r, hS ▸ hr, s, hS ▸ hs, List.mem_singleton.1 hc⟩
    · rcases List.mem_append.1 hc with hc | hc
      · exact h.sound c hc
      · exact List.mem_singleton.1 hc ▸ hsound

end Generate

end Maf.ILP
