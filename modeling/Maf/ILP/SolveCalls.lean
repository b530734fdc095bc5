/-
# Calls of the incremental solver

`src/Solver/ILP/IncrementalMAFSolver.cpp`: `solve` is called any number of times, with
any timeouts, and the MaxSAT solver always returns a cheapest assignment
(`Backend.Optimal`).  Until a call succeeds, the bound is one more than the cost of the
cheapest assignment so far, and some agreement forest of least size satisfies all
constraints (`exists_satisfies_kStar`); so the bound grows, never passes `k*`, and is
`k*` when the candidate is an agreement forest (`solve_calls`).

The call that succeeds cuts the first tree, and the constraints name the edges of the
uncut one.  The next call looks these numbers up in the cut forest: it cuts other
edges (`solve_again_leafAndCherry`).
-/

import Maf.ILP.ReconstructMAF

namespace Maf.ILP

/-- **The backend returns a cheapest assignment** when there is one. -/
structure Backend.Optimal (backend : Backend) : Prop where
  cheapest : ∀ {k φ answer}, backend k φ = some answer → IsCheapest φ answer
  complete : ∀ {k φ}, backend k φ = none → ∀ answer, ¬Satisfies φ answer

/-- **The calls of `solve` so far**, with their results, the last one first. -/
inductive Calls (caps : Caps) (backend : Backend) (T₁ T₂ : Forest) : List SolveResult → IncrementalMAFSolver → Prop
  | new : Calls caps backend T₁ T₂ [] (newSolver T₁ T₂)
  | call {results solver result solver'} (rounds call : ℕ) : Calls caps backend T₁ T₂ results solver →
      solve caps backend rounds call solver = some (result, solver') →
      Calls caps backend T₁ T₂ (result :: results) solver'

/-- A clause consists of paths. -/
theorem IsClause.isUnionOfPaths {T : Forest} {c : Finset ℕ} (h : IsClause T c) : IsUnionOfPaths T c := by
  rcases h with ⟨x, hx, y, hy, z, hz, rfl⟩ | ⟨p, hp, q, hq, r, hr, s, hs, rfl⟩
  · refine ⟨{(x, y), (y, z), (x, z)}, by simp [hx, hy, hz], ?_⟩
    simp [tripleClause, Finset.union_assoc]
  · refine ⟨{(p, q), (r, s)}, by simp [hp, hq, hr, hs], ?_⟩
    simp [pairClause]

section Calls

variable {t₁ t₂ : Tree} {solver solver' : IncrementalMAFSolver} {caps : Caps} {backend : Backend} {φ : Formula}
  {answer : Finset ℕ}

/-- **Before a call succeeds**: no assignment is cheaper than the bound says. -/
structure Pending (t₁ t₂ : Tree) (solver : IncrementalMAFSolver) : Prop where
  invariant : Invariant [t₁] [t₂] solver
  lower : ∀ φ answer, buildSolver solver = some φ → Satisfies φ answer → solver.currentLB ≤ answer.card + 1
  bounded : solver.currentLB ≤ kStar [[t₁], [t₂]]

/-- The formula of a tree that is not cut yet. -/
theorem buildSolver_eq (hI : Invariant [t₁] [t₂] solver) :
    buildSolver solver = some ⟨getNumVars [t₁], edgeOf [t₁] t₁, solver.constraints⟩ := by
  have hmem : t₁ ∈ Forest.subtrees [t₁] := Forest.mem_subtrees.2 ⟨t₁, List.mem_singleton_self _, t₁.mem_subtrees_self⟩
  have hroot : getRootIndex [t₁] = some (edgeOf [t₁] t₁) := nodeToIndex_ptr hmem
  unfold buildSolver
  rw [hI.data₁]
  exact (congrArg (Option.map _) hroot)

variable (h₁ : Forest.Valid [t₁]) (h₂ : Forest.Valid [t₂]) (hS : t₁.labels = t₂.labels)
include h₁ h₂ hS

/-- **The edges between the blocks of a least agreement forest** satisfy all
constraints. -/
theorem exists_satisfies_kStar (hI : Invariant [t₁] [t₂] solver) :
    ∃ answer, Satisfies ⟨getNumVars [t₁], edgeOf [t₁] t₁, solver.constraints⟩ answer ∧
      answer.card + 1 ≤ kStar [[t₁], [t₂]] := by
  have hO := over_pair h₁ h₂ hS
  obtain ⟨P, hP, hcard⟩ := exists_agreementForest hO
  have ht₁ : [t₁] ∈ [[t₁], [t₂]] := List.mem_cons_self ..
  have hlab : Forest.labels [t₁] = t₁.labels := hO.labels _ ht₁
  have hpart : IsPartition t₁.labels P := hlab ▸ hP.partition _ ht₁
  have hPne : P.Nonempty := by
    obtain ⟨x, hx⟩ := t₁.labels_nonempty
    obtain ⟨B, hB, -⟩ := (hpart.cover x).1 hx
    exact ⟨B, hB⟩
  have htop : t₁.labels ∈ Forest.clusters [t₁] :=
    Forest.mem_clusters.2 ⟨t₁, List.mem_singleton_self _, t₁.labels_mem_clusters⟩
  obtain ⟨K, hK, hKS, hKcard, hsep⟩ := exists_cuts (hlab ▸ Forest.hierarchy h₁.distinct) htop hpart.nonempty
    (fun B hB x hx => (hpart.cover x).2 ⟨B, hB, hx⟩) (fun B hB B' hB' hne => hP.disjoint B hB B' hB' hne _ ht₁) hPne
  -- the numbers of the nodes
  have hindex : ∀ X : Finset Label, ∃ i, X ∈ K → ∃ s ∈ Forest.subtrees [t₁], s.labels = X ∧ edgeOf [t₁] s = i := by
    intro X
    by_cases hX : X ∈ K
    · obtain ⟨s, hs, hsX⟩ := Forest.mem_clusters_iff.1 (hK hX)
      exact ⟨edgeOf [t₁] s, fun _ => ⟨s, hs, hsX, rfl⟩⟩
    · exact ⟨0, fun h => absurd h hX⟩
  choose index hindex using hindex
  refine ⟨K.image index, ⟨fun i hi => ?_, fun hroot => ?_, fun c hc => ?_⟩, ?_⟩
  · obtain ⟨X, hX, rfl⟩ := Finset.mem_image.1 hi
    obtain ⟨s, hs, -, he⟩ := hindex X hX
    rw [← he, Finset.mem_range]
    exact List.idxOf_lt_length_of_mem (ptr_mem hs)
  · obtain ⟨X, hX, he⟩ := Finset.mem_image.1 hroot
    obtain ⟨s, hs, rfl, he'⟩ := hindex X hX
    have hmem : t₁ ∈ Forest.subtrees [t₁] := Forest.mem_subtrees.2 ⟨t₁, List.mem_singleton_self _, t₁.mem_subtrees_self⟩
    obtain rfl := (edgeOf_inj h₁.nodup hs hmem).1 (he'.trans he)
    exact hKS hX
  · have hcuts : CutsInto [t₁] (K.image index).toList P := by
      intro x hx y hy hno
      obtain ⟨B, hB, hxB⟩ := (hpart.cover x).1 (hlab ▸ hx)
      obtain ⟨B', hB', hyB'⟩ := (hpart.cover y).1 (hlab ▸ hy)
      have hne : B ≠ B' := by
        rintro rfl
        exact hno ⟨B, hB, hxB, hyB'⟩
      obtain ⟨X, hX, hXsep⟩ := hsep B hB B' hB' hne x hxB y hyB'
      obtain ⟨s, hs, rfl, he⟩ := hindex X hX
      exact ⟨s, hs, Finset.mem_toList.2 (he ▸ Finset.mem_image_of_mem index hX), hXsep⟩
    obtain ⟨e, he, hec⟩ := hI.sound c hc P _ hP hcuts
    exact ⟨e, Finset.mem_toList.1 he, hec⟩
  · have := Finset.card_image_le (s := K) (f := index)
    omega

/-- **What a call shall bring**: a larger bound that is still below `k*`, and when it
succeeds, `k*` itself and an agreement forest of this size. -/
structure CallResult (t₁ t₂ : Tree) (solver : IncrementalMAFSolver) (result : SolveResult)
    (solver' : IncrementalMAFSolver) : Prop where
  le : solver.currentLB ≤ solver'.currentLB
  bounded : solver'.currentLB ≤ kStar [[t₁], [t₂]]
  solved : result = .solved → solver'.currentLB = kStar [[t₁], [t₂]] ∧
    AgreementForest [[t₁], [t₂]] solver'.forestData₁.forestPtr.blocks ∧
    solver'.forestData₁.forestPtr.length = kStar [[t₁], [t₂]]

/-- **A round** throws nothing. -/
theorem solveRound_spec (h : Pending t₁ t₂ solver) (hf : buildSolver solver = some φ) (ha : IsCheapest φ answer)
    (cntRounds : ℕ) : ∃ ok solver', solveRound caps (getNumVars [t₁]) cntRounds answer solver = some (ok, solver') ∧
      CallResult t₁ t₂ solver (if ok then .solved else .timedOut) solver' ∧ (ok = false → Pending t₁ t₂ solver') := by
  have hI := h.invariant
  obtain rfl := Option.some.inj (hf.symm.trans (buildSolver_eq hI))
  have hlive : solver.forestData₁.forestPtr = [t₁] := by rw [hI.data₁]; rfl
  -- the cost of the answer lies between the bound and `k*`
  have hle := h.lower _ answer hf ha.1
  obtain ⟨E, hE, hEk⟩ := exists_satisfies_kStar h₁ h₂ hS hI
  have hk : answer.card + 1 ≤ kStar [[t₁], [t₂]] := by
    have := ha.2 E hE
    omega
  have hkZ : (answer.card : ℤ) + 1 ≤ kStar [[t₁], [t₂]] := by exact_mod_cast hk
  obtain ⟨width, hwidth⟩ : ∃ width, ∀ t ∈ [t₁], Bitset.Within width t.subtreeTerminals := by
    refine ⟨t₁.subtreeTerminals.sup id, fun t ht x hx => ?_⟩
    obtain rfl := List.mem_singleton.1 ht
    have hpos : 0 < x := (h₁.tree t ht).pos.trans_le ((h₁.tree t ht).least_le hx)
    have hsup : x ≤ t.subtreeTerminals.sup id := Finset.le_sup (f := id) hx
    exact ⟨hpos, by omega⟩
  obtain ⟨-, F, -, -, hF, -⟩ := exists_reconstructMAF (Forest.toStore_wellFormed h₁ hwidth) (Nat.lt_succ_self _) rfl
    (fun c hc => (hI.shape c hc).isUnionOfPaths) ha
  have hR := reconstructMAF_spec h₁ hF
  obtain ⟨ok, s₁, hcheck, hI₁, hext, hiff, hsame, -⟩ :=
    checkMAF_spec h₁ h₂ hS hR caps (hI.beginRound (cntRounds + 1) answer.card)
  have hLB : s₁.currentLB = answer.card + 1 := hext.currentLB
  unfold solveRound
  dsimp only at hF ⊢
  rw [hlive, hF, Option.bind_some, hcheck, Option.bind_some]
  cases ok with
  | false =>
      refine ⟨false, s₁, rfl, ⟨hLB ▸ hle, hLB ▸ hkZ, nofun⟩, fun _ => ⟨hI₁, fun φ E hφ hE => ?_, hLB ▸ hkZ⟩⟩
      -- what satisfies the constraints now satisfied them before
      obtain rfl := Option.some.inj (hφ.symm.trans (buildSolver_eq hI₁))
      rw [hLB]
      have hold : Satisfies ⟨getNumVars [t₁], edgeOf [t₁] t₁, solver.constraints⟩ E :=
        ⟨hE.subset, hE.root, fun c hc => hE.hard c (hext.constraints.subset hc)⟩
      have := ha.2 E hold
      omega
  | true =>
      obtain rfl := hsame rfl
      have hlive₁ : (beginRound caps (cntRounds + 1) answer.card solver).forestData₁.forestPtr = [t₁] := hlive
      rw [if_pos rfl, hlive₁, hF]
      have hA := hiff.1 rfl
      have hlen : F.length = answer.card + 1 := by
        rw [hR.length, length_extractCutEdges ha.1.subset, List.length_singleton, Nat.add_comm]
      have hge : kStar [[t₁], [t₂]] ≤ answer.card + 1 := by
        rw [← hlen, ← Forest.card_blocks hR.valid.distinct]
        exact kStar_le hA
      have heq := le_antisymm hk hge
      have heqZ : (answer.card : ℤ) + 1 = kStar [[t₁], [t₂]] := by exact_mod_cast heq
      exact ⟨true, _, rfl, ⟨hle, hkZ, fun _ => ⟨heqZ, hA, hlen.trans heq⟩⟩, fun h => absurd h.symm Bool.false_ne_true⟩

/-- The loop comes to a result, and stays pending while there is no success. -/
theorem solveLoop_spec (hb : backend.Optimal) (h : Pending t₁ t₂ solver) (rounds call cntRounds : ℕ) :
    ∃ result solver', solveLoop caps backend (getNumVars [t₁]) rounds call cntRounds solver = some (result, solver') ∧
      CallResult t₁ t₂ solver result solver' ∧ (result ≠ .solved → Pending t₁ t₂ solver') := by
  induction rounds generalizing solver call cntRounds with
  | zero => exact ⟨.timedOut, solver, rfl, ⟨le_rfl, h.bounded, nofun⟩, fun _ => h⟩
  | succ rounds ih =>
      have hf := buildSolver_eq h.invariant
      unfold solveLoop
      rw [hf, Option.bind_some]
      cases ha : backend call ⟨getNumVars [t₁], edgeOf [t₁] t₁, solver.constraints⟩ with
      | none =>
          obtain ⟨E, hE, -⟩ := exists_satisfies_kStar h₁ h₂ hS h.invariant
          exact absurd hE (hb.complete ha E)
      | some answer =>
          obtain ⟨ok, s₁, hround, hres, hpending⟩ := solveRound_spec h₁ h₂ hS h hf (hb.cheapest ha) cntRounds
          dsimp only
          rw [hround, Option.bind_some]
          cases ok with
          | true => exact ⟨.solved, s₁, rfl, hres, fun h => absurd rfl h⟩
          | false =>
              obtain ⟨result, s₂, hloop, hcall, hafter⟩ := ih (hpending rfl) (call + 1) (cntRounds + 1)
              exact ⟨result, s₂, hloop, ⟨hres.le.trans hcall.le, hcall.bounded, hcall.solved⟩, hafter⟩

/-- **A call of `solve`.** -/
theorem solve_spec (hb : backend.Optimal) (h : Pending t₁ t₂ solver) (rounds call : ℕ) :
    ∃ result solver', solve caps backend rounds call solver = some (result, solver') ∧
      CallResult t₁ t₂ solver result solver' ∧ (result ≠ .solved → Pending t₁ t₂ solver') := by
  have hlive : solver.forestData₁.forestPtr = [t₁] := by rw [h.invariant.data₁]; rfl
  unfold solve
  dsimp only
  rw [hlive]
  split_ifs with hnil
  · obtain ⟨s₁, hs₁, hI₁, hext⟩ := addInitialConstraints_spec h₁ h₂ hS h.invariant
    rw [hs₁, Option.bind_some]
    have h₁' : Pending t₁ t₂ s₁ := by
      refine ⟨hI₁, fun φ E hφ hE => ?_, hext.currentLB ▸ h.bounded⟩
      obtain rfl := Option.some.inj (hφ.symm.trans (buildSolver_eq hI₁))
      rw [hext.currentLB]
      exact h.lower _ E (buildSolver_eq h.invariant)
        ⟨hE.subset, hE.root, fun c hc => hE.hard c (hext.constraints.subset hc)⟩
    obtain ⟨result, s₂, hloop, hcall, hafter⟩ := solveLoop_spec h₁ h₂ hS hb h₁' rounds call 1
    exact ⟨result, s₂, hloop, ⟨hext.currentLB ▸ hcall.le, hcall.bounded, hcall.solved⟩, hafter⟩
  · exact solveLoop_spec h₁ h₂ hS hb h rounds call 1

omit h₁ h₂ hS in
/-- A new solver is pending. -/
theorem pending_newSolver : Pending t₁ t₂ (newSolver [t₁] [t₂]) :=
  ⟨invariant_newSolver, fun _ _ _ _ => by simp only [newSolver]; omega, by simp only [newSolver]; omega⟩

/-- **As long as no call has succeeded**, the solver is as before its first success. -/
theorem Calls.pending (hb : backend.Optimal) {results : List SolveResult}
    (h : Calls caps backend [t₁] [t₂] results solver) (hno : .solved ∉ results) : Pending t₁ t₂ solver := by
  induction h with
  | new => exact pending_newSolver
  | call rounds call _ hs ih =>
      obtain ⟨hne, hno⟩ := not_or.1 (List.mem_cons.not.1 hno)
      obtain ⟨result, s', hs', -, hafter⟩ := solve_spec h₁ h₂ hS hb (ih hno) rounds call
      obtain ⟨rfl, rfl⟩ := Prod.mk.inj (Option.some.inj (hs.symm.trans hs'))
      exact hafter (Ne.symm hne)

/-- **Every call up to the first success is right**, whatever the timeouts: it throws
nothing, the bound does not decrease and never exceeds `k*`, and when the call succeeds
the bound is `k*` and the first tree is cut into an agreement forest of least size. -/
theorem solve_calls (caps : Caps) (hb : backend.Optimal) :
    ∀ results solver, Calls caps backend [t₁] [t₂] results solver → .solved ∉ results → ∀ rounds call,
      ∃ result solver', solve caps backend rounds call solver = some (result, solver') ∧
        CallResult t₁ t₂ solver result solver' := by
  intro results solver h hno rounds call
  obtain ⟨result, s', hs, hcall, -⟩ := solve_spec h₁ h₂ hS hb (h.pending h₁ h₂ hS hb hno) rounds call
  exact ⟨result, s', hs, hcall⟩

end Calls

section Exhaustive

instance (φ : Formula) (answer : Finset ℕ) : Decidable (Satisfies φ answer) :=
  decidable_of_iff (answer ⊆ Finset.range φ.numVars ∧ φ.rootIndex ∉ answer ∧ ∀ c ∈ φ.hard, ∃ e ∈ answer, e ∈ c)
    ⟨fun ⟨h₁, h₂, h₃⟩ => ⟨h₁, h₂, h₃⟩, fun ⟨h₁, h₂, h₃⟩ => ⟨h₁, h₂, h₃⟩⟩

/-- The MaxSAT solver that tries all assignments. -/
def exhaustive : Backend := fun _ φ =>
  (((List.range φ.numVars).sublists.filter fun l => decide (Satisfies φ l.toFinset)).argmin List.length).map
    List.toFinset

/-- Trying all assignments finds a cheapest one. -/
theorem optimal_exhaustive : exhaustive.Optimal := by
  -- every assignment is tried
  have tried : ∀ {φ other}, Satisfies φ other →
      ∃ l ∈ (List.range φ.numVars).sublists.filter fun l => decide (Satisfies φ l.toFinset),
        l.length = other.card := by
    intro φ other h
    set l := (List.range φ.numVars).filter (· ∈ other) with hl
    have hset : l.toFinset = other := by
      ext i
      simp only [hl, List.mem_toFinset, List.mem_filter, List.mem_range, decide_eq_true_eq]
      exact ⟨And.right, fun hi => ⟨Finset.mem_range.1 (h.subset hi), hi⟩⟩
    refine ⟨l, List.mem_filter.2 ⟨List.mem_sublists.2 List.filter_sublist, ?_⟩, ?_⟩
    · exact decide_eq_true (hset.symm ▸ h)
    · rw [← hset, List.toFinset_card_of_nodup (List.nodup_range.filter _)]
  refine ⟨fun {k φ answer} h => ?_, fun {k φ} h other hother => ?_⟩
  · obtain ⟨l, hl, rfl⟩ := Option.map_eq_some_iff.1 h
    refine ⟨of_decide_eq_true (List.mem_filter.1 (List.argmin_mem hl)).2, fun other hother => ?_⟩
    obtain ⟨l', hl', hlen⟩ := tried hother
    exact (List.toFinset_card_le l).trans (hlen ▸ List.le_of_mem_argmin hl' hl)
  · obtain ⟨l, hl, -⟩ := tried hother
    rw [exhaustive, Option.map_eq_none_iff, List.argmin_eq_none] at h
    rw [h] at hl
    cases hl

end Exhaustive

section SolveAgain

/-- The trees of the cut forest are too small to be in conflict. -/
theorem checkMAF_leafAndCherryCut {s : IncrementalMAFSolver} (hs : s.minConstraintsPerRound = 3) :
    checkMAF constantCaps leafAndCherryCut s = some (true, s) := by
  have hsub : checkSubtrees constantCaps (buildForestData leafAndCherryCut) leafAndCherryCut 0 s = some (0, s) := by
    simp [leafAndCherryCut, checkSubtrees, getSubtreeLabels]
  unfold checkMAF
  dsimp only
  rw [hsub, Option.bind_some]
  dsimp only
  rw [hs, if_pos (by decide)]
  -- a single pair of leaves, so no two of them
  have hpairs : checkPathPairs (buildForestData leafAndCherryCut)
      (generateLeafPairs leafAndCherryCut) allCheckTypes 0 s = some (some 0, s) := by
    simp [allCheckTypes, checkPathPairs, checkPathPairConstraints, leafAndCherryCut, generateLeafPairs,
      getSubtreeLabels, Scan.pairs, Scan.twos, Scan.list, Scan.run, nextPair, returned, hs]
  rw [hpairs]
  rfl

/-- The first call succeeds, and cuts the leaf off. -/
theorem solve_leafAndCherry :
    ∃ s, solve constantCaps exhaustive 1 0 (newSolver [leafAndCherry.1] [leafAndCherry.2]) = some (.solved, s) ∧
      s.forestData₁ = ⟨leafAndCherryCut, [leafAndCherry.1]⟩ ∧ s.constraints = [{1, 2, 3, 4}] := by
  obtain ⟨s, hs, hI, hc⟩ := addInitialConstraints_leafAndCherry
  have hbuild : buildSolver s = some ⟨5, 0, [{1, 2, 3, 4}]⟩ := by
    rw [buildSolver_eq hI, hc]
    rfl
  have hanswer : exhaustive 0 ⟨5, 0, [{1, 2, 3, 4}]⟩ = some {1} := by decide +kernel
  have hcut : reconstructMAF (extractCutEdges 5 {1}) [leafAndCherry.1] = some leafAndCherryCut := by decide +kernel
  have hlive : s.forestData₁.forestPtr = [leafAndCherry.1] := by rw [hI.data₁]; rfl
  have hround : solveRound constantCaps 5 1 {1} s = some (true, { beginRound constantCaps 2 1 s with
      forestData₁ := ⟨leafAndCherryCut, [leafAndCherry.1]⟩ }) := by
    have hmin : (beginRound constantCaps 2 1 s).minConstraintsPerRound = 3 := hI.minimum.trans (by decide)
    unfold solveRound
    dsimp only
    rw [hlive, hcut, Option.bind_some, show ((({1} : Finset ℕ).card : ℕ)) = 1 from rfl, checkMAF_leafAndCherryCut hmin,
      Option.bind_some, if_pos rfl, show (beginRound constantCaps 2 1 s).forestData₁.forestPtr = _ from hlive, hcut]
    simp only [Option.map_some, beginRound, hI.data₁]
    rfl
  refine ⟨{ beginRound constantCaps 2 1 s with forestData₁ := ⟨leafAndCherryCut, [leafAndCherry.1]⟩ }, ?_, rfl, hc⟩
  unfold solve
  dsimp only
  rw [if_pos (show (newSolver [leafAndCherry.1] [leafAndCherry.2]).constraints = [] from rfl), hs, Option.bind_some,
    show getNumVars (newSolver _ _).forestData₁.forestPtr = 5 from rfl]
  unfold solveLoop
  rw [hbuild, Option.bind_some, hanswer]
  dsimp only
  rw [hround]
  rfl

/-- The second call throws: in the cut forest the number of the leaf is that of a
root. -/
theorem solve_again_leafAndCherry {s : IncrementalMAFSolver}
    (hdata : s.forestData₁ = ⟨leafAndCherryCut, [leafAndCherry.1]⟩)
    (hc : s.constraints = [{1, 2, 3, 4}]) : solve constantCaps exhaustive 1 1 s = none := by
  have hbuild : buildSolver s = some ⟨5, 0, [{1, 2, 3, 4}]⟩ := by
    unfold buildSolver
    rw [hdata, hc]
    rfl
  have hanswer : exhaustive 1 ⟨5, 0, [{1, 2, 3, 4}]⟩ = some {1} := by decide +kernel
  have hround : solveRound constantCaps 4 1 {1} s = none := by
    unfold solveRound
    dsimp only
    rw [hdata, show reconstructMAF (extractCutEdges 4 {1}) leafAndCherryCut = none by decide +kernel]
    rfl
  unfold solve
  dsimp only
  rw [if_neg (by simp [hc]), Option.bind_some, hdata, show getNumVars leafAndCherryCut = 4 from rfl]
  unfold solveLoop
  rw [hbuild, Option.bind_some, hanswer]
  dsimp only
  rw [hround]
  rfl

/-- **A call after a success can throw.** -/
theorem not_solve_calls_leafAndCherry : exhaustive.Optimal ∧
    ¬∀ results solver, Calls constantCaps exhaustive [leafAndCherry.1] [leafAndCherry.2] results solver →
      ∀ rounds call, ∃ result solver', solve constantCaps exhaustive rounds call solver = some (result, solver') ∧
        CallResult leafAndCherry.1 leafAndCherry.2 solver result solver' := by
  refine ⟨optimal_exhaustive, fun hall => ?_⟩
  obtain ⟨s, hs, hdata, hc⟩ := solve_leafAndCherry
  obtain ⟨result, s', hagain, -⟩ := hall _ s (.call 1 0 .new hs) 1 1
  rw [solve_again_leafAndCherry hdata hc] at hagain
  cases hagain

/-- The first call for a leaf and a cherry. -/
theorem solve_calls_leafAndCherry :
    ∃ result s, solve constantCaps exhaustive 1 0 (newSolver [leafAndCherry.1] [leafAndCherry.2]) = some (result, s) ∧
      CallResult leafAndCherry.1 leafAndCherry.2 (newSolver [leafAndCherry.1] [leafAndCherry.2]) result s :=
  solve_calls valid_leafAndCherry.1 valid_leafAndCherry.2 labels_leafAndCherry constantCaps optimal_exhaustive [] _ .new
    (by decide) 1 0

end SolveAgain

end Maf.ILP
