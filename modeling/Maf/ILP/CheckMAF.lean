/-
# Checking a candidate solution

`checkMAF` of `src/Solver/ILP/IncrementalMAFSolver.cpp` with the functions it calls.
The trees of the candidate are searched for triples with different topologies and
for path pairs that share an edge in the second tree only; each that is found adds
its constraint, and caps on their number end a search early.

`checkMAF_spec` is what it amounts to: the answer is `true` exactly for agreement
forests, and after `false` there is a constraint that the candidate misses.  The
caps are arbitrary numbers here: they decide how many constraints are added, never
what is answered.
-/

import Maf.ILP.Constraints
import Maf.Scan

namespace Maf.ILP

inductive ConstraintCheckType where
  | linear
  | coverage
  | all
  deriving DecidableEq

/-- `ALL_CHECK_TYPES`. -/
def allCheckTypes : List ConstraintCheckType := [.linear, .coverage, .all]

structure LeafPair where
  l : Label
  r : Label

/-- The two places where the caps are computed with floating-point numbers: the cap
of a round from the old one and the number of the round, and the cap of a tree from
that of the round, the number of its leaves and the minimum. -/
structure Caps where
  perRound : ℤ → ℕ → ℤ
  perSubtree : ℤ → ℕ → ℤ → ℤ

/-- `getSubtreeLabels`. -/
def getSubtreeLabels : Tree → List Label
  | .leaf _ x _ => [x]
  | .node _ l r => getSubtreeLabels l ++ getSubtreeLabels r

/-- `generateLeafPairs`. -/
def generateLeafPairs (mafSolution : Forest) : List LeafPair :=
  mafSolution.flatMap fun root => (Scan.pairs (getSubtreeLabels root)).map fun p => ⟨p.1, p.2⟩

/-- The local variables of the coverage loop over triples. -/
structure TripleCursor where
  usedLeaves : Finset Label := ∅
  i : ℕ := 0
  j : ℕ := 1
  k : ℕ := 2

/-- A round of the coverage loop over triples. -/
def nextTriple (labels : List Label) (c : TripleCursor) :
    Option ((Label × Label × Label) × (Bool → TripleCursor)) :=
  let label := fun i => labels.getD i 0
  let used := fun i => decide (label i ∈ c.usedLeaves)
  let i := Scan.skip used (labels.length - c.i) c.i
  let j := Scan.skip (fun j => decide (j ≤ i) || used j) (labels.length - c.j) c.j
  let k := Scan.skip (fun k => decide (k ≤ j) || used k) (labels.length - c.k) c.k
  if c.k < labels.length ∧ k < labels.length then
    some ((label i, label j, label k), fun hit =>
      if hit then ⟨{label i, label j, label k} ∪ c.usedLeaves, k + 1, k + 2, k + 3⟩
      else ⟨c.usedLeaves, i, j, k + 1⟩)
  else none

/-- The local variables of the coverage loop over path pairs. -/
structure PairCursor where
  usedPairs : Finset ℕ := ∅
  i : ℕ := 0
  j : ℕ := 1

/-- A round of the coverage loop over path pairs. -/
def nextPair (pairs : List LeafPair) (c : PairCursor) :
    Option ((LeafPair × LeafPair) × (Bool → PairCursor)) :=
  let used := fun i => decide (i ∈ c.usedPairs)
  let i := Scan.skip used (pairs.length - c.i) c.i
  let j := Scan.skip (fun j => decide (j ≤ i) || used j) (pairs.length - c.j) c.j
  if c.j < pairs.length then
    match pairs[i]?, pairs[j]? with
    | some pair1, some pair2 =>
        some ((pair1, pair2), fun hit =>
          if hit then ⟨{i, j} ∪ c.usedPairs, j + 1, j + 2⟩ else ⟨c.usedPairs, i, j + 1⟩)
    | _, _ => none
  else none

/-- A triple that has different topologies in the candidate and the second tree. -/
def tripleTest (forestDataSol forestData₂ : ForestData) (t : Label × Label × Label) : Option Bool :=
  checkIncompatibleTriple t.1 t.2.1 t.2.2 forestDataSol forestData₂

def generateTriple (t : Label × Label × Label) : IncrementalMAFSolver → Option IncrementalMAFSolver :=
  generateTripleConstraint t.1 t.2.1 t.2.2

/-- Two pairs without a common leaf whose paths are disjoint in the candidate but not
in the second tree. -/
def pairTest (forestDataSol forestData₂ : ForestData) (t : LeafPair × LeafPair) : Option Bool :=
  let pair1 := t.1
  let pair2 := t.2
  if pair1.l = pair2.l ∨ pair1.l = pair2.r ∨ pair1.r = pair2.l ∨ pair1.r = pair2.r then some false
  else
    (areTwoPathsDisjoint pair1.l pair1.r pair2.l pair2.r forestDataSol).bind fun disjoint =>
      if disjoint then
        (areTwoPathsDisjoint pair1.l pair1.r pair2.l pair2.r forestData₂).map fun b => !b
      else some false

def generatePathPair (t : LeafPair × LeafPair) : IncrementalMAFSolver → Option IncrementalMAFSolver :=
  generatePathPairConstraint t.1.l t.1.r t.2.l t.2.r

/-- The number a check returns; `-1` for the early exit. -/
def returned (result : Option ℤ × IncrementalMAFSolver) : ℤ × IncrementalMAFSolver :=
  (result.1.getD (-1), result.2)

/-- **`checkTripleConstraints`**.  The coverage scan falls through into the full one. -/
def checkTripleConstraints (nConstraints : ℤ) (labels : List Label) (type : ConstraintCheckType)
    (forestDataSol : ForestData) (cap : ℤ) (solver : IncrementalMAFSolver) :
    Option (ℤ × IncrementalMAFSolver) :=
  let test := tripleTest forestDataSol solver.forestData₂
  let all := fun n solver => (Scan.list test generateTriple cap (Scan.triples labels) n solver).map returned
  match type with
  | .linear =>
      (Scan.list test generateTriple cap (Scan.threes labels) nConstraints solver).map returned
  | .coverage =>
      (Scan.run (nextTriple labels) test generateTriple cap (labels.length + 1) {} nConstraints solver).bind
        fun result =>
          match result with
          | (none, solver) => some (-1, solver)
          | (some n, solver) => all n solver
  | .all => all nConstraints solver

/-- **`checkPathPairConstraints`**. -/
def checkPathPairConstraints (nConstraints : ℤ) (type : ConstraintCheckType) (pairs : List LeafPair)
    (forestDataSol : ForestData) (solver : IncrementalMAFSolver) : Option (ℤ × IncrementalMAFSolver) :=
  let test := pairTest forestDataSol solver.forestData₂
  let cap := solver.maxConstraintsPerRound
  match type with
  | .linear => (Scan.list test generatePathPair cap (Scan.twos pairs) nConstraints solver).map returned
  | .coverage =>
      (Scan.run (nextPair pairs) test generatePathPair cap (pairs.length + 1) {} nConstraints solver).map
        returned
  | .all => (Scan.list test generatePathPair cap (Scan.pairs pairs) nConstraints solver).map returned

/-- The loop of `checkMAF` over the trees of the candidate. -/
def checkSubtrees (caps : Caps) (forestDataSol : ForestData) :
    List Tree → ℤ → IncrementalMAFSolver → Option (ℤ × IncrementalMAFSolver)
  | [], nConstraints, solver => some (nConstraints, solver)
  | solutionRoot :: roots, nConstraints, solver =>
      let labels := (getSubtreeLabels solutionRoot).mergeSort (· ≤ ·)
      let cap := max 1
        (caps.perSubtree solver.maxConstraintsPerRound labels.length solver.minConstraintsPerRound)
      if labels.length < 3 then checkSubtrees caps forestDataSol roots nConstraints solver
      else
        (checkTripleConstraints 0 labels .coverage forestDataSol cap solver).bind fun (n, solver) =>
          if n < 0 then checkSubtrees caps forestDataSol roots (nConstraints + cap) solver
          else
            (checkTripleConstraints n labels .all forestDataSol cap solver).bind fun (n, solver) =>
              if n < 0 then checkSubtrees caps forestDataSol roots (nConstraints + cap) solver
              else checkSubtrees caps forestDataSol roots (nConstraints + n) solver

/-- The loop of `checkMAF` over the ways to check path pairs; `none` for the counter
when it returns `false`. -/
def checkPathPairs (forestDataSol : ForestData) (pairs : List LeafPair) :
    List ConstraintCheckType → ℤ → IncrementalMAFSolver → Option (Option ℤ × IncrementalMAFSolver)
  | [], nConstraints, solver => some (some nConstraints, solver)
  | type :: types, nConstraints, solver =>
      (checkPathPairConstraints nConstraints type pairs forestDataSol solver).bind fun (n, solver) =>
        if n < 0 ∨ solver.minConstraintsPerRound < n then some (none, solver)
        else checkPathPairs forestDataSol pairs types n solver

/-- **`checkMAF`**. -/
def checkMAF (caps : Caps) (mafSolution : Forest) (solver : IncrementalMAFSolver) :
    Option (Bool × IncrementalMAFSolver) :=
  let forestDataSol := buildForestData mafSolution
  (checkSubtrees caps forestDataSol mafSolution 0 solver).bind fun (n, solver) =>
    if n < solver.minConstraintsPerRound then
      (checkPathPairs forestDataSol (generateLeafPairs mafSolution) allCheckTypes n solver).map fun result =>
        match result with
        | (none, solver) => (false, solver)
        | (some n, solver) => (!decide (0 < n), solver)
    else some (!decide (0 < n), solver)

section Lists

variable {t u : Tree} {F : Forest} {x y : Label} {labels : List Label}

/-- `getSubtreeLabels` lists the labels of the tree. -/
theorem mem_getSubtreeLabels : x ∈ getSubtreeLabels t ↔ x ∈ t.labels := by
  induction t with
  | leaf p z m => simp [getSubtreeLabels]
  | node p l r ihl ihr => simp [getSubtreeLabels, ihl, ihr]

/-- `getSubtreeLabels` lists no label twice. -/
theorem nodup_getSubtreeLabels (ht : t.Distinct) : (getSubtreeLabels t).Nodup := by
  induction t with
  | leaf p z m => simp [getSubtreeLabels]
  | node p l r ihl ihr =>
      obtain ⟨hl, hr, hd⟩ := ht
      refine List.nodup_append.2 ⟨ihl hl, ihr hr, fun x hx y hy hxy => ?_⟩
      rw [mem_getSubtreeLabels] at hx hy
      exact Finset.disjoint_left.1 hd hx (hxy ▸ hy)

/-- A pair of leaves belongs to one tree. -/
theorem mem_generateLeafPairs (hF : F.Distinct) {p : LeafPair} (hp : p ∈ generateLeafPairs F) :
    ∃ u ∈ F, p.l ∈ u.labels ∧ p.r ∈ u.labels ∧ p.l ≠ p.r := by
  obtain ⟨u, hu, hp⟩ := List.mem_flatMap.1 hp
  obtain ⟨⟨x, y⟩, hxy, rfl⟩ := List.mem_map.1 hp
  have hsub := Scan.sublist_of_mem_pairs hxy
  have hne := (nodup_getSubtreeLabels (hF.of_mem hu)).sublist hsub
  exact ⟨u, hu, mem_getSubtreeLabels.1 (hsub.subset (by simp)), mem_getSubtreeLabels.1 (hsub.subset (by simp)),
    by simpa using hne⟩

/-- Any two leaves of a tree are a pair, in some order. -/
theorem exists_leafPair (hu : u ∈ F) (hx : x ∈ u.labels) (hy : y ∈ u.labels) (hxy : x ≠ y) :
    ∃ p ∈ generateLeafPairs F, p.l = x ∧ p.r = y ∨ p.l = y ∧ p.r = x := by
  have hall : (getSubtreeLabels u).Pairwise fun a b =>
      (a, b) ∈ Scan.pairs (getSubtreeLabels u) ∨ (b, a) ∈ Scan.pairs (getSubtreeLabels u) :=
    Scan.forall_pairs fun a b h => Or.inl h
  have : Std.Symm fun a b => (a, b) ∈ Scan.pairs (getSubtreeLabels u) ∨
      (b, a) ∈ Scan.pairs (getSubtreeLabels u) := ⟨fun _ _ => Or.symm⟩
  have mem : ∀ {a b}, (a, b) ∈ Scan.pairs (getSubtreeLabels u) → ⟨a, b⟩ ∈ generateLeafPairs F := fun hab =>
    List.mem_flatMap.2 ⟨u, hu, List.mem_map.2 ⟨_, hab, rfl⟩⟩
  rcases hall.forall (mem_getSubtreeLabels.2 hx) (mem_getSubtreeLabels.2 hy) hxy with h | h
  · exact ⟨_, mem h, Or.inl ⟨rfl, rfl⟩⟩
  · exact ⟨_, mem h, Or.inr ⟨rfl, rfl⟩⟩

/-- The three indices of a round of the coverage loop. -/
theorem nextTriple_cases {c : TripleCursor} {a : Label × Label × Label} {go : Bool → TripleCursor}
    (h : nextTriple labels c = some (a, go)) : ∃ i j k, i < j ∧ j < k ∧ k < labels.length ∧
      a = (labels.getD i 0, labels.getD j 0, labels.getD k 0) ∧ c.k ≤ k ∧ c.k < labels.length ∧
      (go true).k = k + 3 ∧ (go false).k = k + 1 := by
  unfold nextTriple at h
  dsimp only at h
  split_ifs at h with hk
  have hstop : ∀ {blocked : ℕ → Bool} {a b : ℕ}, Scan.skip (fun j => decide (j ≤ a) || blocked j)
      (labels.length - b) b < labels.length →
      a < Scan.skip (fun j => decide (j ≤ a) || blocked j) (labels.length - b) b := by
    intro blocked a b hlt
    have hle := Scan.le_skip (fun j => decide (j ≤ a) || blocked j) (labels.length - b) b
    have hne : Scan.skip (fun j => decide (j ≤ a) || blocked j) (labels.length - b) b <
        b + (labels.length - b) := by omega
    have := Scan.not_blocked_skip hne
    simp only [Bool.or_eq_false_iff, decide_eq_false_iff_not, not_le] at this
    exact this.1
  obtain ⟨rfl, rfl⟩ := Prod.mk.inj (Option.some.inj h)
  have hjk := hstop hk.2
  exact ⟨_, _, _, hstop (hjk.trans hk.2), hjk, hk.2, rfl, Scan.le_skip _ _ _, hk.1, rfl, rfl⟩

variable {pairs : List LeafPair}

/-- The pair at a cursor, and the cursors after it. -/
theorem nextPair_cases {c : PairCursor} {a : LeafPair × LeafPair} {go : Bool → PairCursor}
    (h : nextPair pairs c = some (a, go)) : a.1 ∈ pairs ∧ a.2 ∈ pairs ∧
      ∃ j, c.j ≤ j ∧ c.j < pairs.length ∧ (go true).j = j + 2 ∧ (go false).j = j + 1 := by
  unfold nextPair at h
  dsimp only at h
  split_ifs at h with hj
  split at h
  · next pair1 pair2 h₁ h₂ =>
    obtain ⟨rfl, rfl⟩ := Prod.mk.inj (Option.some.inj h)
    exact ⟨List.mem_of_getElem? h₁, List.mem_of_getElem? h₂, _, Scan.le_skip _ _ _, hj, rfl, rfl⟩
  · cases h

end Lists

/-- A constraint without a cut edge. -/
def Missed (E : List ℕ) (solver : IncrementalMAFSolver) : Prop := ∃ c ∈ solver.constraints, ¬Hits E c

/-- **What a search for violated constraints leads to**: nothing was found, so `C`
holds, or the counter tells of a constraint that the edges `E` miss. -/
structure Outcome (T₁ T₂ : Forest) (E : List ℕ) (C : Prop) (solver : IncrementalMAFSolver) (n : ℤ)
    (result : ℤ × IncrementalMAFSolver) : Prop where
  invariant : Invariant T₁ T₂ result.2
  extends_ : Extends solver result.2
  found : result = (n, solver) ∧ C ∨ Missed E result.2 ∧ (result.1 < 0 ∨ n < result.1)

/-- A constraint that is missed stays missed. -/
theorem Missed.mono {E : List ℕ} {solver solver' : IncrementalMAFSolver} (h : Missed E solver)
    (he : Extends solver solver') : Missed E solver' := by
  obtain ⟨c, hc, hmiss⟩ := h
  exact ⟨c, he.constraints.subset hc, hmiss⟩

section Check

variable {t₁ t₂ u : Tree} {F : Forest} {E : List ℕ} {solver : IncrementalMAFSolver} {x y z p q r s : Label}
  {n : ℤ}
  (h₁ : Forest.Valid [t₁]) (h₂ : Forest.Valid [t₂]) (hS : t₁.labels = t₂.labels)
  (hF : Reconstructed [t₁] E F)

include hF in
/-- The labels of a tree that is left are labels of the first tree. -/
theorem Reconstructed.subset (hu : u ∈ F) : u.labels ⊆ t₁.labels := fun x hx => by
  have := Forest.mem_labels.2 ⟨u, hu, hx⟩
  rw [hF.labels] at this
  simpa using this

include hF in
/-- Leaves of one tree of the candidate have no cut edge between them. -/
theorem Reconstructed.not_cut (hu : u ∈ F) (hx : x ∈ u.labels) (hy : y ∈ u.labels) :
    ¬Cut [t₁] E x y := ((hF.joined x y).1 ⟨u, hu, hx, hy⟩).2

include hF in
/-- The candidate has the topologies of the first tree. -/
theorem Reconstructed.conflict_iff {D : Finset (Finset Label)} (hu : u ∈ F) (hx : x ∈ u.labels)
    (hy : y ∈ u.labels) (hz : z ∈ u.labels) :
    Conflict F.clusters D x y z ↔ Conflict (Forest.clusters [t₁]) D x y z := by
  have j : ∀ {a b}, a ∈ u.labels → b ∈ u.labels → F.Joined a b := fun ha hb => ⟨u, hu, ha, hb⟩
  unfold Conflict
  rw [hF.triple x y z (j hx hy) (j hy hz), hF.triple y z x (j hy hz) (j hz hx),
    hF.triple x z y (j hx hz) (j hz hy)]

include h₁ h₂ hS in
/-- The two trees are an instance over their labels. -/
theorem over_pair : Instance.Over [[t₁], [t₂]] t₁.labels := by
  refine ⟨by simp, fun G hG => ?_, fun G hG => ?_⟩
  · rcases List.mem_pair.1 hG with rfl | rfl
    · exact h₁.distinct
    · exact h₂.distinct
  · rcases List.mem_pair.1 hG with rfl | rfl
    · simp
    · simpa using hS.symm

include h₂ hS hF in
/-- `tripleTest` tells whether three labels of a tree are in conflict. -/
theorem tripleTest_spec (hu : u ∈ F) (hx : x ∈ u.labels) (hy : y ∈ u.labels) (hz : z ∈ u.labels)
    (hxy : x ≠ y) (hxz : x ≠ z) (hyz : y ≠ z) :
    ∃ b, tripleTest (buildForestData F) (buildForestData [t₂]) (x, y, z) = some b ∧
      (b = true ↔ Conflict (Forest.clusters [t₁]) (Forest.clusters [t₂]) x y z) := by
  have hsub := hF.subset hu
  obtain ⟨b, hb, hiff⟩ := checkIncompatibleTriple_spec hF.valid h₂ hu (List.mem_singleton.2 rfl) hxy hxz hyz
    ⟨hx, hS ▸ hsub hx⟩ ⟨hy, hS ▸ hsub hy⟩ ⟨hz, hS ▸ hsub hz⟩
  exact ⟨b, hb, hiff.trans (hF.conflict_iff hu hx hy hz)⟩

include h₁ h₂ hS hF in
/-- A violated triple leaves a constraint the candidate misses. -/
theorem generateTriple_spec (hI : Invariant [t₁] [t₂] solver) (hu : u ∈ F) (hx : x ∈ u.labels)
    (hy : y ∈ u.labels) (hz : z ∈ u.labels) (hxy : x ≠ y) (hxz : x ≠ z) (hyz : y ≠ z)
    (hc : Conflict (Forest.clusters [t₁]) (Forest.clusters [t₂]) x y z) :
    ∃ solver', generateTriple (x, y, z) solver = some solver' ∧ Invariant [t₁] [t₂] solver' ∧
      Extends solver solver' ∧ Missed E solver' := by
  have hsub := hF.subset hu
  obtain ⟨solver', hs, hI', he, hmem⟩ := hI.generateTriple h₁ hxy hxz hyz (hsub hx) (hsub hy) (hsub hz)
    (sound_tripleClause (over_pair h₁ h₂ hS) (hsub hx) (hsub hy) (hsub hz) hc)
  refine ⟨solver', hs, hI', he, _, hmem, ?_⟩
  rw [hits_tripleClause]
  rintro (h | h | h)
  · exact hF.not_cut hu hx hy h
  · exact hF.not_cut hu hy hz h
  · exact hF.not_cut hu hx hz h

/-- No three leaves of the tree have different topologies. -/
def NoConflict (t₁ t₂ u : Tree) : Prop :=
  ∀ x ∈ u.labels, ∀ y ∈ u.labels, ∀ z ∈ u.labels, x ≠ y → x ≠ z → y ≠ z →
    ¬Conflict (Forest.clusters [t₁]) (Forest.clusters [t₂]) x y z

/-- The first two labels of a conflict may be swapped. -/
theorem conflict_swap {C D : Finset (Finset Label)} : Conflict C D x y z ↔ Conflict C D y x z := by
  unfold Conflict
  rw [triple_comm (C := C) (x := x) (y := y), triple_comm (C := D) (x := x) (y := y)]
  tauto

/-- The last two labels of a conflict may be swapped. -/
theorem conflict_rotate {C D : Finset (Finset Label)} : Conflict C D x y z ↔ Conflict C D x z y := by
  unfold Conflict
  rw [triple_comm (C := C) (x := y) (y := z), triple_comm (C := D) (x := y) (y := z)]
  tauto

/-- What a scan returns, in terms of `Outcome`. -/
theorem outcome_of_scan {C D : Prop} {result : Option (Option ℤ × IncrementalMAFSolver)} (hC : C → D)
    (h : ∃ r solver', result = some (r, solver') ∧ (Invariant [t₁] [t₂] solver' ∧ Extends solver solver') ∧
      (r = some n ∧ solver' = solver ∧ C ∨ Missed E solver' ∧ ∀ m, r = some m → n < m)) :
    ∃ res, result.map returned = some res ∧ Outcome [t₁] [t₂] E D solver n res := by
  obtain ⟨r, solver', rfl, ⟨hI, he⟩, hfound⟩ := h
  refine ⟨_, rfl, hI, he, ?_⟩
  rcases hfound with ⟨rfl, rfl, hc⟩ | ⟨hm, hlt⟩
  · exact Or.inl ⟨rfl, hC hc⟩
  · refine Or.inr ⟨hm, ?_⟩
    cases r with
    | none => exact Or.inl (by simp [returned])
    | some m => exact Or.inr (hlt m rfl)

/-- Three different leaves of the tree with the given labels. -/
structure IsTriple (u : Tree) (a : Label × Label × Label) : Prop where
  left : a.1 ∈ u.labels
  middle : a.2.1 ∈ u.labels
  right : a.2.2 ∈ u.labels
  ne₁₂ : a.1 ≠ a.2.1
  ne₁₃ : a.1 ≠ a.2.2
  ne₂₃ : a.2.1 ≠ a.2.2

/-- Three labels in a row of a list are a triple. -/
theorem isTriple_of_sublist {labels : List Label} (hmem : ∀ x, x ∈ labels ↔ x ∈ u.labels)
    (hnodup : labels.Nodup) (h : [x, y, z].Sublist labels) : IsTriple u (x, y, z) := by
  have hn := hnodup.sublist h
  simp only [List.nodup_cons, List.mem_cons, not_or, List.not_mem_nil, not_false_eq_true, and_true] at hn
  exact ⟨(hmem x).1 (h.subset (by simp)), (hmem y).1 (h.subset (by simp)), (hmem z).1 (h.subset (by simp)),
    hn.1.1, hn.1.2, hn.2.1⟩

/-- What the cursor gives is a triple. -/
theorem isTriple_of_nextTriple {labels : List Label} (hmem : ∀ x, x ∈ labels ↔ x ∈ u.labels)
    (hnodup : labels.Nodup) {c : TripleCursor} {a : Label × Label × Label} {go : Bool → TripleCursor}
    (h : nextTriple labels c = some (a, go)) : IsTriple u a := by
  obtain ⟨i, j, k, hij, hjk, hk, rfl, -⟩ := nextTriple_cases h
  have hget : ∀ {i}, i < labels.length → labels.getD i 0 ∈ u.labels := fun hi => by
    rw [List.getD_eq_getElem _ _ hi]
    exact (hmem _).1 (List.getElem_mem hi)
  have hne : ∀ {i j}, i < j → j < labels.length → labels.getD i 0 ≠ labels.getD j 0 := by
    intro i j hij hj heq
    rw [List.getD_eq_getElem _ _ hj, List.getD_eq_getElem _ _ (hij.trans hj)] at heq
    exact absurd ((hnodup.getElem_inj_iff).1 heq) hij.ne
  have hj := hjk.trans hk
  exact ⟨hget (hij.trans hj), hget hj, hget hk, hne hij hj, hne (hij.trans hjk) hk, hne hjk hk⟩

include h₂ hS hF in
/-- The test of a triple comes to a result. -/
theorem IsTriple.test (hu : u ∈ F) {a : Label × Label × Label} (ha : IsTriple u a) :
    ∃ b, tripleTest (buildForestData F) (buildForestData [t₂]) a = some b :=
  (tripleTest_spec h₂ hS hF hu ha.left ha.middle ha.right ha.ne₁₂ ha.ne₁₃ ha.ne₂₃).imp fun _ => And.left

include h₁ h₂ hS hF in
/-- A violated triple leaves a constraint the candidate misses, whenever it is found. -/
theorem IsTriple.generate {solver₀ : IncrementalMAFSolver} (hu : u ∈ F) {a : Label × Label × Label}
    (ha : IsTriple u a) (ht : tripleTest (buildForestData F) (buildForestData [t₂]) a = some true)
    (h : Invariant [t₁] [t₂] solver ∧ Extends solver₀ solver) :
    ∃ solver', generateTriple a solver = some solver' ∧
      (Invariant [t₁] [t₂] solver' ∧ Extends solver₀ solver') ∧ Missed E solver' := by
  obtain ⟨b, hb, hiff⟩ := tripleTest_spec h₂ hS hF hu ha.left ha.middle ha.right ha.ne₁₂ ha.ne₁₃ ha.ne₂₃
  have hbt : b = true := Option.some.inj (hb.symm.trans ht)
  obtain ⟨solver', hs, hI, he, hm⟩ := generateTriple_spec h₁ h₂ hS hF h.1 hu ha.left ha.middle ha.right
    ha.ne₁₂ ha.ne₁₃ ha.ne₂₃ (hiff.1 hbt)
  exact ⟨solver', hs, ⟨hI, h.2.trans he⟩, hm⟩

include h₂ hS hF in
/-- A full scan without a hit leaves no conflict. -/
theorem noConflict_of_scan (hu : u ∈ F) {labels : List Label} (hmem : ∀ x, x ∈ labels ↔ x ∈ u.labels)
    (hnodup : labels.Nodup) (hno : ∀ a ∈ Scan.triples labels,
      tripleTest (buildForestData F) (buildForestData [t₂]) a = some false) : NoConflict t₁ t₂ u := by
  intro x hx y hy z hz hxy hxz hyz
  refine Scan.forall_triples (R := fun x y z => ¬Conflict (Forest.clusters [t₁]) (Forest.clusters [t₂]) x y z)
    (fun h => by rwa [conflict_swap]) (fun h => by rwa [conflict_rotate]) (l := labels) (fun a b c habc => ?_)
    ((hmem x).2 hx) ((hmem y).2 hy) ((hmem z).2 hz) hxy hxz hyz
  have ht := isTriple_of_sublist hmem hnodup (Scan.sublist_of_mem_triples habc)
  obtain ⟨v, hv, hiff⟩ := tripleTest_spec h₂ hS hF hu ht.left ht.middle ht.right ht.ne₁₂ ht.ne₁₃ ht.ne₂₃
  have hvf : v = false := Option.some.inj (hv.symm.trans (hno _ habc))
  rw [← hiff, hvf]
  exact Bool.false_ne_true

include h₁ h₂ hS hF in
/-- A scan of triples finds no conflict, or adds a constraint that is missed. -/
theorem scan_triples_spec (hI : Invariant [t₁] [t₂] solver) (hu : u ∈ F) {l : List (Label × Label × Label)}
    (hl : ∀ a ∈ l, IsTriple u a) {D : Prop} {cap : ℤ}
    (hD : (∀ a ∈ l, tripleTest (buildForestData F) (buildForestData [t₂]) a = some false) → D) :
    ∃ res, (Scan.list (tripleTest (buildForestData F) (buildForestData [t₂])) generateTriple cap l n
      solver).map returned = some res ∧ Outcome [t₁] [t₂] E D solver n res :=
  outcome_of_scan hD (Scan.list_rule (P := fun s => Invariant [t₁] [t₂] s ∧ Extends solver s)
    (fun a ha => (hl a ha).test h₂ hS hF hu)
    (fun a _ ha => (hl a ha).generate h₁ h₂ hS hF hu) ⟨hI, Extends.refl _⟩)

include h₁ h₂ hS hF in
/-- **`checkTripleConstraints`**: in the coverage and the full mode a tree without new
constraints has no conflict. -/
theorem checkTripleConstraints_spec (hI : Invariant [t₁] [t₂] solver) (hu : u ∈ F) {labels : List Label}
    (hmem : ∀ x, x ∈ labels ↔ x ∈ u.labels) (hnodup : labels.Nodup) (type : ConstraintCheckType) (cap : ℤ) :
    ∃ res, checkTripleConstraints n labels type (buildForestData F) cap solver = some res ∧
      Outcome [t₁] [t₂] E (type ≠ .linear → NoConflict t₁ t₂ u) solver n res := by
  have full : ∀ {n : ℤ} {solver}, Invariant [t₁] [t₂] solver → ∃ res,
      (Scan.list (tripleTest (buildForestData F) (buildForestData [t₂])) generateTriple cap
        (Scan.triples labels) n solver).map returned = some res ∧
      Outcome [t₁] [t₂] E (type ≠ .linear → NoConflict t₁ t₂ u) solver n res := fun hI =>
    scan_triples_spec h₁ h₂ hS hF hI hu
      (fun _ ha => isTriple_of_sublist hmem hnodup (Scan.sublist_of_mem_triples ha))
      (fun hno _ => noConflict_of_scan h₂ hS hF hu hmem hnodup hno)
  unfold checkTripleConstraints
  dsimp only
  rw [hI.data₂]
  cases type with
  | all => exact full hI
  | linear =>
      exact scan_triples_spec h₁ h₂ hS hF hI hu
        (fun _ ha => isTriple_of_sublist hmem hnodup (Scan.sublist_of_mem_threes ha)) fun _ h => absurd rfl h
  | coverage =>
      obtain ⟨r, s', hr, ⟨hI', he'⟩, hfound⟩ := Scan.run_rule cap (K := fun _ => True)
        (I := IsTriple u) (P := fun s => Invariant [t₁] [t₂] s ∧ Extends solver s) (Q := Missed E) (n := n)
        (fun _ _ _ _ hc => ⟨isTriple_of_nextTriple hmem hnodup hc, fun _ => trivial⟩)
        (fun _ ha => ha.test h₂ hS hF hu) (fun _ _ ha => ha.generate h₁ h₂ hS hF hu)
        (labels.length + 1) (c := {}) trivial ⟨hI, Extends.refl _⟩
      rw [hr, Option.bind_some]
      cases r with
      | none =>
          rcases hfound with ⟨hr', -⟩ | ⟨hm, -⟩
          · cases hr'
          · exact ⟨_, rfl, hI', he', Or.inr ⟨hm, Or.inl (by simp)⟩⟩
      | some m =>
          -- the fall through into the full scan
          obtain ⟨res, hres, ho⟩ := full (n := m) hI'
          refine ⟨res, hres, ho.invariant, he'.trans ho.extends_, ?_⟩
          rcases hfound with ⟨hm, rfl, -⟩ | ⟨hm, hlt⟩
          · obtain rfl := Option.some.inj hm
            exact ho.found
          · have := hlt m rfl
            refine Or.inr ⟨hm.mono ho.extends_, ?_⟩
            rcases ho.found with ⟨rfl, -⟩ | ⟨-, h⟩
            · exact Or.inr this
            · omega

include h₁ h₂ hS hF in
/-- **The loop over the trees** finds a conflict or there is none. -/
theorem checkSubtrees_spec (caps : Caps) (hI : Invariant [t₁] [t₂] solver) {roots : List Tree}
    (hroots : roots ⊆ F) : ∃ res, checkSubtrees caps (buildForestData F) roots n solver = some res ∧
      Outcome [t₁] [t₂] E (∀ u ∈ roots, NoConflict t₁ t₂ u) solver n res ∧ n ≤ res.1 := by
  induction roots generalizing n solver with
  | nil => exact ⟨_, rfl, ⟨hI, Extends.refl _, Or.inl ⟨rfl, by simp⟩⟩, le_rfl⟩
  | cons u roots ih =>
      have hu : u ∈ F := hroots (List.mem_cons_self ..)
      have hsub : roots ⊆ F := fun w hw => hroots (List.mem_cons_of_mem _ hw)
      unfold checkSubtrees
      dsimp only
      set labels := (getSubtreeLabels u).mergeSort (· ≤ ·)
      set cap := max 1
        (caps.perSubtree solver.maxConstraintsPerRound labels.length solver.minConstraintsPerRound)
      have hcap : 1 ≤ cap := le_max_left _ _
      have hperm : labels.Perm (getSubtreeLabels u) := List.mergeSort_perm _ _
      have hmem : ∀ x, x ∈ labels ↔ x ∈ u.labels := fun x => hperm.mem_iff.trans mem_getSubtreeLabels
      have hnodup : labels.Nodup :=
        hperm.nodup_iff.2 (nodup_getSubtreeLabels (hF.valid.distinct.of_mem hu))
      -- the rest of the loop, when the tree has left a constraint that is missed
      have later : ∀ {n' s'}, Invariant [t₁] [t₂] s' → Extends solver s' → Missed E s' → n < n' →
          ∃ res, checkSubtrees caps (buildForestData F) roots n' s' = some res ∧
            Outcome [t₁] [t₂] E (∀ w ∈ u :: roots, NoConflict t₁ t₂ w) solver n res ∧ n ≤ res.1 := by
        intro n' s' hI' he' hm hlt
        obtain ⟨res, hres, ho, hle⟩ := ih (n := n') hI' hsub
        exact ⟨res, hres, ⟨ho.invariant, he'.trans ho.extends_, Or.inr ⟨hm.mono ho.extends_, Or.inr (by omega)⟩⟩,
          by omega⟩
      -- and when the tree has none
      have clean : NoConflict t₁ t₂ u → ∃ res, checkSubtrees caps (buildForestData F) roots n solver = some res ∧
          Outcome [t₁] [t₂] E (∀ w ∈ u :: roots, NoConflict t₁ t₂ w) solver n res ∧ n ≤ res.1 := by
        intro hno
        obtain ⟨res, hres, ho, hle⟩ := ih (n := n) hI hsub
        exact ⟨res, hres, ⟨ho.invariant, ho.extends_, ho.found.imp_left fun ⟨h, hc⟩ =>
          ⟨h, List.forall_mem_cons.2 ⟨hno, hc⟩⟩⟩, hle⟩
      split_ifs with hlen
      · refine clean fun x hx y hy z hz hxy hxz hyz => ?_
        have hthree : ({x, y, z} : Finset Label) ⊆ labels.toFinset := by
          intro w hw
          simp only [Finset.mem_insert, Finset.mem_singleton] at hw
          rw [List.mem_toFinset, hmem]
          rcases hw with rfl | rfl | rfl <;> assumption
        have h₁ := Finset.card_le_card hthree
        have h₂ := List.toFinset_card_le labels
        rw [Finset.card_eq_three.2 ⟨x, y, z, hxy, hxz, hyz, rfl⟩] at h₁
        omega
      · obtain ⟨⟨c, s₁⟩, hc, ho⟩ :=
          checkTripleConstraints_spec h₁ h₂ hS hF hI hu hmem hnodup .coverage cap (n := 0)
        rw [hc, Option.bind_some]
        dsimp only
        split_ifs with hneg
        · rcases ho.found with ⟨heq, -⟩ | ⟨hm, -⟩
          · obtain ⟨rfl, -⟩ := Prod.mk.inj heq
            omega
          · exact later ho.invariant ho.extends_ hm (by omega)
        · obtain ⟨⟨d, s₂⟩, hd, ho'⟩ :=
            checkTripleConstraints_spec h₁ h₂ hS hF ho.invariant hu hmem hnodup .all cap (n := c)
          rw [hd, Option.bind_some]
          dsimp only
          rcases ho.found with ⟨heq, -⟩ | ⟨hm, hpos⟩
          · obtain ⟨rfl, rfl⟩ := Prod.mk.inj heq
            rcases ho'.found with ⟨heq', hno⟩ | ⟨hm', hpos'⟩
            · obtain ⟨rfl, rfl⟩ := Prod.mk.inj heq'
              rw [if_neg hneg, add_zero]
              exact clean (hno (by decide))
            · split_ifs with hneg'
              · exact later ho'.invariant ho'.extends_ hm' (by omega)
              · exact later ho'.invariant ho'.extends_ hm' (by simp only at hpos'; omega)
          · have he := ho.extends_.trans ho'.extends_
            have hm' := hm.mono ho'.extends_
            simp only at hpos
            split_ifs with hneg'
            · exact later ho'.invariant he hm' (by omega)
            · refine later ho'.invariant he hm' ?_
              rcases ho'.found with ⟨heq', -⟩ | ⟨-, h⟩
              · obtain ⟨rfl, -⟩ := Prod.mk.inj heq'
                omega
              · simp only at h
                omega

/-- Paths in trees of the candidate that are disjoint in the first tree are disjoint
in the second. -/
def PathsKept (t₁ t₂ : Tree) (F : Forest) : Prop :=
  ∀ u ∈ F, ∀ v ∈ F, ∀ p ∈ u.labels, ∀ q ∈ u.labels, ∀ r ∈ v.labels, ∀ s ∈ v.labels, FourLabels p q r s →
    PathsDisjoint (Forest.clusters [t₁]) p q r s → PathsDisjoint (Forest.clusters [t₂]) p q r s

/-- Two pairs of leaves, each of one tree. -/
structure IsPathPair (u v : Tree) (a : LeafPair × LeafPair) : Prop where
  l₁ : a.1.l ∈ u.labels
  r₁ : a.1.r ∈ u.labels
  l₂ : a.2.l ∈ v.labels
  r₂ : a.2.r ∈ v.labels
  ne₁ : a.1.l ≠ a.1.r
  ne₂ : a.2.l ≠ a.2.r

/-- Two pairs of leaves belong to two trees. -/
theorem exists_isPathPair (hF : F.Distinct) {a : LeafPair × LeafPair} (h₁ : a.1 ∈ generateLeafPairs F)
    (h₂ : a.2 ∈ generateLeafPairs F) : ∃ u ∈ F, ∃ v ∈ F, IsPathPair u v a := by
  obtain ⟨u, hu, hl, hr, hne⟩ := mem_generateLeafPairs hF h₁
  obtain ⟨v, hv, hl', hr', hne'⟩ := mem_generateLeafPairs hF h₂
  exact ⟨u, hu, v, hv, hl, hr, hl', hr', hne, hne'⟩

include h₂ hS hF in
/-- **The test finds what an agreement forest must not have.** -/
theorem IsPathPair.test {v : Tree} (hu : u ∈ F) (hv : v ∈ F) {a : LeafPair × LeafPair}
    (ha : IsPathPair u v a) : ∃ b, pairTest (buildForestData F) (buildForestData [t₂]) a = some b ∧
      (b = true ↔ FourLabels a.1.l a.1.r a.2.l a.2.r ∧
        PathsDisjoint (Forest.clusters [t₁]) a.1.l a.1.r a.2.l a.2.r ∧
        ¬PathsDisjoint (Forest.clusters [t₂]) a.1.l a.1.r a.2.l a.2.r) := by
  have hsub : ∀ {w x}, w ∈ F → x ∈ w.labels → x ∈ t₂.labels := fun hw hx => hS ▸ hF.subset hw hx
  have hkeep := hF.paths _ _ _ _ ⟨u, hu, ha.l₁, ha.r₁⟩ ⟨v, hv, ha.l₂, ha.r₂⟩
  unfold pairTest
  dsimp only
  split_ifs with hshare
  · refine ⟨false, rfl, fun h => absurd h Bool.false_ne_true, fun h => ?_⟩
    obtain ⟨-, -, h₁, h₂, h₃, h₄⟩ := h.1
    tauto
  · rw [areTwoPathsDisjoint_spec hF.valid hu hv ha.l₁ ha.r₁ ha.l₂ ha.r₂ ha.ne₁ ha.ne₂, Option.bind_some,
      areTwoPathsDisjoint_spec h₂ (List.mem_singleton.2 rfl) (List.mem_singleton.2 rfl) (hsub hu ha.l₁)
        (hsub hu ha.r₁) (hsub hv ha.l₂) (hsub hv ha.r₂) ha.ne₁ ha.ne₂]
    push Not at hshare
    have hfour : FourLabels a.1.l a.1.r a.2.l a.2.r :=
      ⟨ha.ne₁, ha.ne₂, hshare.1, hshare.2.1, hshare.2.2.1, hshare.2.2.2⟩
    by_cases hd : PathsDisjoint F.clusters a.1.l a.1.r a.2.l a.2.r
    · refine ⟨_, by rw [if_pos (decide_eq_true hd)]; rfl, ?_⟩
      rw [Bool.not_eq_true', decide_eq_false_iff_not]
      exact ⟨fun h => ⟨hfour, hkeep.1 hd, h⟩, fun h => h.2.2⟩
    · refine ⟨false, by rw [if_neg (by simpa using hd)], fun h => absurd h Bool.false_ne_true, fun h => ?_⟩
      exact absurd (hkeep.2 h.2.1) hd

include h₁ h₂ hS hF in
/-- A violated pair leaves a constraint the candidate misses, whenever it is found. -/
theorem IsPathPair.generate {solver₀ : IncrementalMAFSolver} {v : Tree} (hu : u ∈ F) (hv : v ∈ F)
    {a : LeafPair × LeafPair} (ha : IsPathPair u v a)
    (ht : pairTest (buildForestData F) (buildForestData [t₂]) a = some true)
    (h : Invariant [t₁] [t₂] solver ∧ Extends solver₀ solver) :
    ∃ solver', generatePathPair a solver = some solver' ∧
      (Invariant [t₁] [t₂] solver' ∧ Extends solver₀ solver') ∧ Missed E solver' := by
  obtain ⟨b, hb, hiff⟩ := ha.test h₂ hS hF hu hv
  obtain ⟨hfour, hdis, hshare⟩ := hiff.1 (Option.some.inj (hb.symm.trans ht))
  have hl₁ := hF.subset hu ha.l₁
  have hr₁ := hF.subset hu ha.r₁
  have hl₂ := hF.subset hv ha.l₂
  have hr₂ := hF.subset hv ha.r₂
  obtain ⟨solver', hs, hI, he, hmem⟩ := h.1.generatePathPair h₁ hfour hl₁ hr₁ hl₂ hr₂ hdis
    (sound_pairClause (over_pair h₁ h₂ hS) ⟨hl₁, hr₁, hl₂, hr₂⟩ hdis hshare)
  refine ⟨solver', hs, ⟨hI, h.2.trans he⟩, _, hmem, ?_⟩
  rw [hits_pairClause]
  rintro (h | h)
  · exact hF.not_cut hu ha.l₁ ha.r₁ h
  · exact hF.not_cut hv ha.l₂ ha.r₂ h

omit h₁ h₂ hS hF in
/-- The ends of a path may be swapped. -/
theorem pathsDisjoint_swap {C : Finset (Finset Label)} :
    PathsDisjoint C p q r s ↔ PathsDisjoint C q p r s := by
  unfold PathsDisjoint
  simp only [separates_comm (x := p)]

include h₂ hS hF in
/-- A full scan without a hit leaves no such pair. -/
theorem pathsKept_of_scan (hno : ∀ a ∈ Scan.pairs (generateLeafPairs F),
    pairTest (buildForestData F) (buildForestData [t₂]) a = some false) : PathsKept t₁ t₂ F := by
  let R : LeafPair → LeafPair → Prop := fun a b => FourLabels a.l a.r b.l b.r →
    PathsDisjoint (Forest.clusters [t₁]) a.l a.r b.l b.r → PathsDisjoint (Forest.clusters [t₂]) a.l a.r b.l b.r
  have hall : (generateLeafPairs F).Pairwise R := Scan.forall_pairs fun a b hab hfour hdis => by
    have hsub := (Scan.sublist_of_mem_pairs hab).subset
    obtain ⟨u, hu, v, hv, hab'⟩ := exists_isPathPair hF.valid.distinct (a := (a, b)) (hsub (by simp))
      (hsub (by simp))
    obtain ⟨c, hc, hiff⟩ := hab'.test h₂ hS hF hu hv
    have hcf : c = false := Option.some.inj (hc.symm.trans (hno _ hab))
    by_contra hshare
    exact absurd (hiff.2 ⟨hfour, hdis, hshare⟩) (by simp [hcf])
  have : Std.Symm R := ⟨fun a b h hfour hdis =>
    (h ⟨hfour.2.1, hfour.1, hfour.2.2.1.symm, hfour.2.2.2.2.1.symm, hfour.2.2.2.1.symm,
      hfour.2.2.2.2.2.symm⟩ hdis.symm).symm⟩
  intro u hu v hv p hp q hq r hr s hs hfour hdis
  obtain ⟨a, ha, hpq⟩ := exists_leafPair hu hp hq hfour.1
  obtain ⟨b, hb, hrs⟩ := exists_leafPair hv hr hs hfour.2.1
  obtain ⟨hpq', hrs', hpr, hps, hqr, hqs⟩ := hfour
  have hne : a ≠ b := by
    rintro rfl
    rcases hpq with ⟨rfl, rfl⟩ | ⟨rfl, rfl⟩ <;> rcases hrs with ⟨h, -⟩ | ⟨h, -⟩
    exacts [hpr h, hps h, hqr h, hqs h]
  have hR : R a b := hall.forall ha hb hne
  have hswap : ∀ {C : Finset (Finset Label)} {p q r s}, PathsDisjoint C p q r s ↔ PathsDisjoint C p q s r :=
    fun {C p q r s} => ⟨fun h => (pathsDisjoint_swap.1 h.symm).symm, fun h => (pathsDisjoint_swap.1 h.symm).symm⟩
  rcases hpq with ⟨rfl, rfl⟩ | ⟨rfl, rfl⟩ <;> rcases hrs with ⟨rfl, rfl⟩ | ⟨rfl, rfl⟩
  · exact hR ⟨hpq', hrs', hpr, hps, hqr, hqs⟩ hdis
  · exact hswap.1 (hR ⟨hpq', hrs'.symm, hps, hpr, hqs, hqr⟩ (hswap.1 hdis))
  · exact pathsDisjoint_swap.1 (hR ⟨hpq'.symm, hrs', hqr, hqs, hpr, hps⟩ (pathsDisjoint_swap.1 hdis))
  · exact pathsDisjoint_swap.1 (hswap.1 (hR ⟨hpq'.symm, hrs'.symm, hqs, hqr, hps, hpr⟩
      (hswap.1 (pathsDisjoint_swap.1 hdis))))

include h₁ h₂ hS hF in
/-- **`checkPathPairConstraints`**: in the full mode a candidate without new
constraints keeps its paths apart. -/
theorem checkPathPairConstraints_spec (hI : Invariant [t₁] [t₂] solver) (type : ConstraintCheckType) :
    ∃ res, checkPathPairConstraints n type (generateLeafPairs F) (buildForestData F) solver = some res ∧
      Outcome [t₁] [t₂] E (type = .all → PathsKept t₁ t₂ F) solver n res := by
  let item := fun a : LeafPair × LeafPair => a.1 ∈ generateLeafPairs F ∧ a.2 ∈ generateLeafPairs F
  have htest : ∀ a, item a → ∃ b, pairTest (buildForestData F) (buildForestData [t₂]) a = some b := by
    rintro a ⟨ha₁, ha₂⟩
    obtain ⟨u, hu, v, hv, ha⟩ := exists_isPathPair hF.valid.distinct ha₁ ha₂
    exact (ha.test h₂ hS hF hu hv).imp fun _ => And.left
  have hact : ∀ a s, item a → pairTest (buildForestData F) (buildForestData [t₂]) a = some true →
      Invariant [t₁] [t₂] s ∧ Extends solver s → ∃ s', generatePathPair a s = some s' ∧
        (Invariant [t₁] [t₂] s' ∧ Extends solver s') ∧ Missed E s' := by
    rintro a s ⟨ha₁, ha₂⟩ ht hs
    obtain ⟨u, hu, v, hv, ha⟩ := exists_isPathPair hF.valid.distinct ha₁ ha₂
    exact ha.generate h₁ h₂ hS hF hu hv ht hs
  have scan : ∀ {l : List (LeafPair × LeafPair)} {D : Prop}, (∀ a ∈ l, item a) →
      ((∀ a ∈ l, pairTest (buildForestData F) (buildForestData [t₂]) a = some false) → D) →
      ∃ res, (Scan.list (pairTest (buildForestData F) (buildForestData [t₂])) generatePathPair
        solver.maxConstraintsPerRound l n solver).map returned = some res ∧
        Outcome [t₁] [t₂] E D solver n res := fun hl hD =>
    outcome_of_scan hD (Scan.list_rule (P := fun s => Invariant [t₁] [t₂] s ∧ Extends solver s)
      (fun a ha => htest a (hl a ha)) (fun a s ha => hact a s (hl a ha)) ⟨hI, Extends.refl _⟩)
  unfold checkPathPairConstraints
  dsimp only
  rw [hI.data₂]
  cases type with
  | linear =>
      refine scan (fun a ha => ?_) fun _ h => absurd h (by decide)
      have hsub := (Scan.sublist_of_mem_twos ha).subset
      exact ⟨hsub (by simp), hsub (by simp)⟩
  | all =>
      refine scan (fun a ha => ?_) fun hno _ => pathsKept_of_scan h₂ hS hF hno
      have hsub := (Scan.sublist_of_mem_pairs ha).subset
      exact ⟨hsub (by simp), hsub (by simp)⟩
  | coverage =>
      refine outcome_of_scan (C := True) (fun _ h => absurd h (by decide)) ?_
      obtain ⟨r, s', hr, hI', hfound⟩ := Scan.run_rule solver.maxConstraintsPerRound
        (K := fun _ => True) (I := item) (P := fun s => Invariant [t₁] [t₂] s ∧ Extends solver s) (Q := Missed E)
        (n := n) (fun c a go _ hc => ⟨⟨(nextPair_cases hc).1, (nextPair_cases hc).2.1⟩, fun _ => trivial⟩)
        htest hact ((generateLeafPairs F).length + 1) (c := {}) trivial ⟨hI, Extends.refl _⟩
      exact ⟨r, s', hr, hI', hfound.imp_left fun ⟨h, h', _⟩ => ⟨h, h', trivial⟩⟩

include h₁ h₂ hS hF in
/-- **The loop over the ways to check path pairs** finds a pair or there is none. -/
theorem checkPathPairs_spec (hI : Invariant [t₁] [t₂] solver) (types : List ConstraintCheckType)
    (hn : 0 ≤ n) (hmin : n ≤ solver.minConstraintsPerRound) :
    ∃ r s', checkPathPairs (buildForestData F) (generateLeafPairs F) types n solver = some (r, s') ∧
      Invariant [t₁] [t₂] s' ∧ Extends solver s' ∧
      (r = some n ∧ s' = solver ∧ (.all ∈ types → PathsKept t₁ t₂ F) ∨
        Missed E s' ∧ ∀ m, r = some m → n < m) := by
  induction types generalizing n solver with
  | nil => exact ⟨_, _, rfl, hI, Extends.refl _, Or.inl ⟨rfl, rfl, by simp⟩⟩
  | cons type types ih =>
      obtain ⟨⟨m, s₁⟩, hm, ho⟩ := checkPathPairConstraints_spec h₁ h₂ hS hF hI type (n := n)
      have hI₁ : Invariant [t₁] [t₂] s₁ := ho.invariant
      unfold checkPathPairs
      rw [hm, Option.bind_some]
      dsimp only
      split_ifs with hstop
      · refine ⟨none, s₁, rfl, hI₁, ho.extends_, Or.inr ⟨?_, fun m hm => by cases hm⟩⟩
        rcases ho.found with ⟨heq, -⟩ | ⟨hmiss, -⟩
        · obtain ⟨rfl, rfl⟩ := Prod.mk.inj heq
          omega
        · exact hmiss
      · obtain ⟨r, s', hr, hI', he', hfound⟩ := ih (n := m) hI₁ (by omega) (by omega)
        refine ⟨r, s', hr, hI', Extends.trans ho.extends_ he', ?_⟩
        rcases ho.found with ⟨heq, hkept⟩ | ⟨hmiss, hlt⟩
        · obtain ⟨rfl, rfl⟩ := Prod.mk.inj heq
          refine hfound.imp_left fun ⟨h, h', hall⟩ => ⟨h, h', fun hmem => ?_⟩
          rcases List.mem_cons.1 hmem with rfl | hmem
          · exact hkept rfl
          · exact hall hmem
        · refine Or.inr ⟨Missed.mono hmiss he', fun k hk => ?_⟩
          simp only at hlt
          rcases hfound with ⟨rfl, -, -⟩ | ⟨-, h⟩
          · have := Option.some.inj hk
            omega
          · have := h k hk
            omega

include h₁ h₂ hS hF in
/-- **Nothing violated means an agreement forest.** -/
theorem agreementForest_of_kept (htri : ∀ u ∈ F, NoConflict t₁ t₂ u) (hpath : PathsKept t₁ t₂ F) :
    AgreementForest [[t₁], [t₂]] F.blocks := by
  have hI := over_pair h₁ h₂ hS
  have hF₁ : F.labels = t₁.labels := hF.labels.trans (by simp)
  have hdist := hF.valid.distinct
  have hlab : Labels t₁.labels F.blocks F.treeOf := hF₁ ▸ Forest.labels_treeOf hdist
  rw [agreementForest_iff hI hlab]
  refine ⟨hF₁ ▸ Forest.isPartition_blocks hdist, ?_⟩
  have hemb : Embeds t₁.labels (Forest.clusters [t₁]) F.treeOf := by
    have h := hF.embeds (hF.labels ▸ Forest.embeds_treeOf hdist)
    simpa using h
  have hC : Hierarchy t₁.labels (Forest.clusters [t₁]) := by simpa using Forest.hierarchy h₁.distinct
  have hD : Hierarchy t₁.labels (Forest.clusters [t₂]) := by simpa [hS] using Forest.hierarchy h₂.distinct
  have hSD : t₁.labels ∈ Forest.clusters [t₂] := hS ▸ Forest.mem_clusters.2
    ⟨t₂, List.mem_singleton.2 rfl, t₂.labels_mem_clusters⟩
  have joined : ∀ {x y}, x ∈ t₁.labels → y ∈ t₁.labels → F.treeOf x = F.treeOf y → F.Joined x y :=
    fun hx hy h => (Forest.treeOf_eq_iff hdist (hF₁ ▸ hx) (hF₁ ▸ hy)).1 h
  refine (isAgreement_iff_conflicts hC hD hSD hemb).2 ⟨?_, ?_⟩
  · intro x hx y hy z hz hxy hxz hyz hfxy hfyz
    obtain ⟨u, hu, hxu, hyu⟩ := joined hx hy hfxy
    obtain ⟨v, hv, hyv, hzv⟩ := joined hy hz hfyz
    obtain rfl := hdist.eq_of_mem hv hu hyv hyu
    exact htri v hv x hxu y hyu z hzv hxy hxz hyz
  · intro p hp q hq r hr s hs hfour hpq hrs
    obtain ⟨u, hu, hpu, hqu⟩ := joined hp hq hpq
    obtain ⟨v, hv, hrv, hsv⟩ := joined hr hs hrs
    exact hpath u hu v hv p hpu q hqu r hrv s hsv hfour

include hF in
/-- The edges of a candidate lie between its trees. -/
theorem Reconstructed.cutsInto : CutsInto [t₁] E F.blocks := by
  intro x hx y hy hno
  by_contra hcut
  have hT : Forest.Joined [t₁] x y := ⟨t₁, List.mem_singleton.2 rfl, by simpa using hx, by simpa using hy⟩
  obtain ⟨u, hu, hxu, hyu⟩ := (hF.joined x y).2 ⟨hT, hcut⟩
  exact hno ⟨u.labels, by rw [Forest.blocks, List.mem_toFinset]; exact List.mem_map_of_mem hu, hxu, hyu⟩

include hF in
/-- A candidate that misses a sound constraint is no agreement forest. -/
theorem not_agreementForest_of_missed (hI : Invariant [t₁] [t₂] solver) (hm : Missed E solver) :
    ¬AgreementForest [[t₁], [t₂]] F.blocks := by
  obtain ⟨c, hc, hmiss⟩ := hm
  exact fun hA => hmiss (hI.sound c hc F.blocks E hA hF.cutsInto)

include h₁ h₂ hS hF in
/-- **`checkMAF` recognises agreement forests**; after `false` there is a constraint
the candidate misses. -/
theorem checkMAF_spec (caps : Caps) (hI : Invariant [t₁] [t₂] solver) :
    ∃ ok solver', checkMAF caps F solver = some (ok, solver') ∧ Invariant [t₁] [t₂] solver' ∧
      Extends solver solver' ∧ (ok = true ↔ AgreementForest [[t₁], [t₂]] F.blocks) ∧
      (ok = true → solver' = solver) ∧ (ok = false → Missed E solver') := by
  -- the two ways to end
  have accept : (∀ u ∈ F, NoConflict t₁ t₂ u) → PathsKept t₁ t₂ F →
      (true = true ↔ AgreementForest [[t₁], [t₂]] F.blocks) ∧ (true = true → solver = solver) ∧
        (true = false → Missed E solver) := fun htri hpath =>
    ⟨⟨fun _ => agreementForest_of_kept h₁ h₂ hS hF htri hpath, fun _ => rfl⟩, fun _ => rfl,
      fun h => absurd h.symm Bool.false_ne_true⟩
  have reject : ∀ {s'}, Invariant [t₁] [t₂] s' → Missed E s' →
      (false = true ↔ AgreementForest [[t₁], [t₂]] F.blocks) ∧ (false = true → s' = solver) ∧
        (false = false → Missed E s') := fun hI' hm =>
    ⟨⟨fun h => absurd h Bool.false_ne_true, fun h => absurd h (not_agreementForest_of_missed hF hI' hm)⟩,
      fun h => absurd h Bool.false_ne_true, fun _ => hm⟩
  have hpos : 0 < solver.minConstraintsPerRound := by
    have := t₁.labels_nonempty.card_pos
    rw [hI.minimum]
    simpa using this
  obtain ⟨⟨n, s₁⟩, hn, ho, hle⟩ :=
    checkSubtrees_spec h₁ h₂ hS hF caps hI (n := 0) (List.Subset.refl F)
  have hI₁ : Invariant [t₁] [t₂] s₁ := ho.invariant
  have hmin : s₁.minConstraintsPerRound = solver.minConstraintsPerRound :=
    hI₁.minimum.trans hI.minimum.symm
  simp only at hle
  unfold checkMAF
  dsimp only
  rw [hn, Option.bind_some]
  dsimp only
  split_ifs with hlt
  · obtain ⟨r, s', hr, hI', he', hfound⟩ :=
      checkPathPairs_spec h₁ h₂ hS hF hI₁ allCheckTypes hle hlt.le
    rw [hr, Option.map_some]
    have he := Extends.trans ho.extends_ he'
    rcases ho.found with ⟨heq, htri⟩ | ⟨hm, hn₀⟩
    · obtain ⟨rfl, rfl⟩ := Prod.mk.inj heq
      rcases hfound with ⟨rfl, rfl, hkept⟩ | ⟨hm, hr₀⟩
      · refine ⟨true, s', by simp, hI', he, ?_⟩
        exact accept htri (hkept (by decide))
      · refine ⟨false, s', ?_, hI', he, reject hI' hm⟩
        cases r with
        | none => rfl
        | some m => simp [hr₀ m rfl]
    · have hm' := Missed.mono hm he'
      refine ⟨false, s', ?_, hI', he, reject hI' hm'⟩
      simp only at hn₀
      cases r with
      | none => rfl
      | some m =>
          have hm₀ : 0 < m := by
            rcases hfound with ⟨h, -, -⟩ | ⟨-, h⟩
            · have := Option.some.inj h
              omega
            · have := h m rfl
              omega
          simp [hm₀]
  · rcases ho.found with ⟨heq, -⟩ | ⟨hm, -⟩
    · obtain ⟨rfl, rfl⟩ := Prod.mk.inj heq
      omega
    · refine ⟨false, s₁, ?_, hI₁, ho.extends_, reject hI₁ hm⟩
      have : 0 < n := by omega
      simp [this]

end Check

end Maf.ILP
