/-
# The incremental lower-bound solver

`src/Solver/ILP/IncrementalMAFSolver.cpp`.  A MaxSAT solver proposes a cheapest set
of edges of the first tree that satisfies all constraints so far; the forest it
leaves is checked, and new constraints are added until the check succeeds.

The MaxSAT solver is a parameter (`Backend`).  The timeout cuts the loop off after a
number of rounds, and `timedOut` and `infeasible` both stand for the answer `false`.

`checkMAF_correct` is about every state of the solver in which the first tree is
still whole (`Reachable`): the check recognises agreement forests, every constraint
is sound, no violated constraint is ever suppressed because its key is known, and
the loop ends.
-/

import Maf.ILP.CheckMAF

namespace Maf.ILP

/-- What is handed to the MaxSAT solver: a variable for every edge, of which as few
as possible shall be true, the variable of the root, which must be false, and
clauses. -/
structure Formula where
  numVars : ℕ
  rootIndex : ℕ
  hard : List (Finset ℕ)

/-- A MaxSAT solver, with the number of the call: the variables that are true. -/
abbrev Backend := ℕ → Formula → Option (Finset ℕ)

/-- The variables satisfy the formula. -/
structure Satisfies (φ : Formula) (answer : Finset ℕ) : Prop where
  subset : answer ⊆ Finset.range φ.numVars
  root : φ.rootIndex ∉ answer
  hard : ∀ c ∈ φ.hard, ∃ e ∈ answer, e ∈ c

/-- The backend returns assignments that satisfy the formula. -/
def Backend.Sound (backend : Backend) : Prop :=
  ∀ k φ answer, backend k φ = some answer → Satisfies φ answer

/-- How `solve` comes to its end. -/
inductive SolveResult where
  | solved
  | infeasible
  | timedOut
  deriving DecidableEq

/-- The constructor. -/
def newSolver (T₁ T₂ : Forest) : IncrementalMAFSolver where
  forestData₁ := buildForestData T₁
  forestData₂ := buildForestData T₂
  constraints := []
  addedTripleConstraints := ∅
  addedPathPairConstraints := ∅
  maxConstraintsPerRound := T₁.labels.card
  minConstraintsPerRound := T₁.labels.card
  currentLB := 0

/-- The first loop of `addInitialConstraints`. -/
def addInitialTriple (t : Label × Label × Label) (solver : IncrementalMAFSolver) :
    Option IncrementalMAFSolver :=
  (tripleTest solver.forestData₁ solver.forestData₂ t).bind fun incompatible =>
    if incompatible then generateTriple t solver else some solver

/-- The second loop of `addInitialConstraints`. -/
def addInitialPathPair (t : Label × Label × Label × Label) (solver : IncrementalMAFSolver) :
    Option IncrementalMAFSolver :=
  let (l₀, l₁, l₂, l₃) := t
  if l₀ = l₁ ∨ l₀ = l₃ ∨ l₂ = l₁ ∨ l₂ = l₃ then some solver
  else
    (areTwoPathsDisjoint l₀ l₁ l₂ l₃ solver.forestData₁).bind fun disjoint₁ =>
      if disjoint₁ then
        (areTwoPathsDisjoint l₀ l₁ l₂ l₃ solver.forestData₂).bind fun disjoint₂ =>
          if disjoint₂ then some solver else generatePathPairConstraint l₀ l₁ l₂ l₃ solver
      else some solver

/-- `addInitialConstraints`. -/
def addInitialConstraints (solver : IncrementalMAFSolver) : Option IncrementalMAFSolver :=
  let labels := solver.forestData₁.forestPtr.labels.sort (· ≤ ·)
  ((Scan.threes labels).foldlM (fun solver t => addInitialTriple t solver) solver).bind fun solver =>
    (Scan.fours labels).foldlM (fun solver t => addInitialPathPair t solver) solver

/-- `buildSolver` with the clauses added to the new solver. -/
def buildSolver (solver : IncrementalMAFSolver) : Option Formula :=
  (getRootIndex solver.forestData₁.forestPtr).map fun rootIndex =>
    ⟨solver.forestData₁.built.ptrs.length, rootIndex, solver.constraints⟩

/-- `extractCutEdges`: the solution has values for `numVars` variables. -/
def extractCutEdges (numVars : ℕ) (answer : Finset ℕ) : List ℕ :=
  (List.range numVars).filter fun i => decide (i ∈ answer)

/-- The bound and the cap of a round. -/
def beginRound (caps : Caps) (cntRounds : ℕ) (objValue : ℕ) (solver : IncrementalMAFSolver) :
    IncrementalMAFSolver :=
  { solver with
    currentLB := objValue + 1
    maxConstraintsPerRound := min (10 * solver.minConstraintsPerRound)
      (caps.perRound solver.maxConstraintsPerRound cntRounds) }

/-- A round of the loop of `solve`, after the answer of the MaxSAT solver. -/
def solveRound (caps : Caps) (numVars cntRounds : ℕ) (answer : Finset ℕ) (solver : IncrementalMAFSolver) :
    Option (Bool × IncrementalMAFSolver) :=
  let cutEdges := extractCutEdges numVars answer
  (reconstructMAF cutEdges solver.forestData₁.forestPtr).bind fun mafSolution =>
    (checkMAF caps mafSolution (beginRound caps (cntRounds + 1) answer.card solver)).bind fun (ok, solver) =>
      if ok then
        (reconstructMAF cutEdges solver.forestData₁.forestPtr).map fun F =>
          (true, { solver with forestData₁ := { solver.forestData₁ with forestPtr := F } })
      else some (false, solver)

/-- The loop of `solve`, with the number of rounds before the timeout and the number
of calls of the MaxSAT solver so far. -/
def solveLoop (caps : Caps) (backend : Backend) (numVars : ℕ) :
    ℕ → ℕ → ℕ → IncrementalMAFSolver → Option (SolveResult × IncrementalMAFSolver)
  | 0, _, _, solver => some (.timedOut, solver)
  | rounds + 1, call, cntRounds, solver =>
      (buildSolver solver).bind fun formula =>
        match backend call formula with
        | none => some (.infeasible, solver)
        | some answer =>
            (solveRound caps numVars cntRounds answer solver).bind fun (ok, solver) =>
              if ok then some (.solved, solver)
              else solveLoop caps backend numVars rounds (call + 1) (cntRounds + 1) solver

/-- **`solve`**. -/
def solve (caps : Caps) (backend : Backend) (rounds call : ℕ) (solver : IncrementalMAFSolver) :
    Option (SolveResult × IncrementalMAFSolver) :=
  let numVars := getNumVars solver.forestData₁.forestPtr
  (if solver.constraints = [] then addInitialConstraints solver else some solver).bind
    (solveLoop caps backend numVars rounds call 1)

/-- **The states of the solver before a call succeeds**, whatever the MaxSAT solver
answers and wherever the rounds are cut off. -/
inductive Reachable (caps : Caps) (T₁ T₂ : Forest) : IncrementalMAFSolver → Prop
  | new : Reachable caps T₁ T₂ (newSolver T₁ T₂)
  | initial {solver solver'} : Reachable caps T₁ T₂ solver → addInitialConstraints solver = some solver' →
      Reachable caps T₁ T₂ solver'
  | begin {solver} (cntRounds objValue : ℕ) : Reachable caps T₁ T₂ solver →
      Reachable caps T₁ T₂ (beginRound caps cntRounds objValue solver)
  | checked {solver solver'} {E : List ℕ} {F : Forest} : Reachable caps T₁ T₂ solver →
      (∀ c ∈ solver.constraints, Hits E c) → reconstructMAF E T₁ = some F →
      checkMAF caps F solver = some (false, solver') → Reachable caps T₁ T₂ solver'

section Invariants

variable {T₁ T₂ : Forest} {t₁ t₂ : Tree} {solver solver' : IncrementalMAFSolver} {E : List ℕ} {F : Forest}
  {x y z p q r s : Label} {caps : Caps}

/-- A new solver keeps the invariant. -/
theorem invariant_newSolver : Invariant T₁ T₂ (newSolver T₁ T₂) :=
  ⟨rfl, rfl, by simp [newSolver], by simp [newSolver], by simp [newSolver], by simp [newSolver],
    by simp [newSolver], rfl⟩

/-- The bound and the cap are not part of the invariant. -/
theorem Invariant.beginRound (h : Invariant T₁ T₂ solver) (cntRounds objValue : ℕ) :
    Invariant T₁ T₂ (beginRound caps cntRounds objValue solver) :=
  ⟨h.data₁, h.data₂, h.triple, h.pair, h.length, h.shape, h.sound, h.minimum⟩

/-- **There are no more constraints than triples and quadruples of labels.** -/
theorem Invariant.length_le (h : Invariant T₁ T₂ solver) :
    solver.constraints.length ≤ T₁.labels.card ^ 3 + T₁.labels.card ^ 4 := by
  have h₃ : solver.addedTripleConstraints ⊆ (T₁.labels ×ˢ T₁.labels ×ˢ T₁.labels).image
      fun t => ({t.1, t.2.1, t.2.2} : Multiset Label) := fun k hk => by
    obtain ⟨x, hx, y, hy, z, hz, rfl, -⟩ := h.triple k hk
    exact Finset.mem_image.2 ⟨(x, y, z), by simp [hx, hy, hz], rfl⟩
  have h₄ : solver.addedPathPairConstraints ⊆ (T₁.labels ×ˢ T₁.labels ×ˢ T₁.labels ×ˢ T₁.labels).image
      fun t => ({t.1, t.2.1, t.2.2.1, t.2.2.2} : Multiset Label) := fun k hk => by
    obtain ⟨p, hp, q, hq, r, hr, s, hs, rfl, -⟩ := h.pair k hk
    exact Finset.mem_image.2 ⟨(p, q, r, s), by simp [hp, hq, hr, hs], rfl⟩
  have c₃ := (Finset.card_le_card h₃).trans Finset.card_image_le
  have c₄ := (Finset.card_le_card h₄).trans Finset.card_image_le
  simp only [Finset.card_product] at c₃ c₄
  have e₃ : T₁.labels.card ^ 3 = T₁.labels.card * (T₁.labels.card * T₁.labels.card) := by ring
  have e₄ : T₁.labels.card ^ 4 = T₁.labels.card * (T₁.labels.card * (T₁.labels.card * T₁.labels.card)) := by
    ring
  rw [h.length, e₃, e₄]
  exact Nat.add_le_add c₃ c₄

variable (h₁ : Forest.Valid [t₁]) (h₂ : Forest.Valid [t₂]) (hS : t₁.labels = t₂.labels)
include h₁ h₂ hS

/-- A triple adds a sound constraint or nothing. -/
theorem addInitialTriple_spec (hI : Invariant [t₁] [t₂] solver) {a : Label × Label × Label}
    (ha : IsTriple t₁ a) : ∃ solver', addInitialTriple a solver = some solver' ∧ Invariant [t₁] [t₂] solver' ∧
      Extends solver solver' := by
  have hF := reconstructed_nil h₁
  have ht : t₁ ∈ [t₁] := List.mem_singleton.2 rfl
  obtain ⟨b, hb⟩ := ha.test h₂ hS hF ht
  unfold addInitialTriple
  rw [hI.data₁, hI.data₂, hb, Option.bind_some]
  cases b with
  | false => exact ⟨solver, rfl, hI, Extends.refl _⟩
  | true =>
      obtain ⟨solver', hs, ⟨hI', he⟩, -⟩ := ha.generate h₁ h₂ hS hF ht hb ⟨hI, Extends.refl _⟩
      exact ⟨solver', hs, hI', he⟩

/-- Two paths add a sound constraint or nothing. -/
theorem addInitialPathPair_spec (hI : Invariant [t₁] [t₂] solver) {a : Label × Label × Label × Label}
    (hn : [a.1, a.2.1, a.2.2.1, a.2.2.2].Nodup)
    (hsub : ∀ x ∈ [a.1, a.2.1, a.2.2.1, a.2.2.2], x ∈ t₁.labels) :
    ∃ solver', addInitialPathPair a solver = some solver' ∧ Invariant [t₁] [t₂] solver' ∧
      Extends solver solver' := by
  obtain ⟨p, q, r, s⟩ := a
  have ht : t₁ ∈ [t₁] := List.mem_singleton.2 rfl
  have ht' : t₂ ∈ [t₂] := List.mem_singleton.2 rfl
  have hp : p ∈ t₁.labels := hsub p (by simp)
  have hq : q ∈ t₁.labels := hsub q (by simp)
  have hr : r ∈ t₁.labels := hsub r (by simp)
  have hs : s ∈ t₁.labels := hsub s (by simp)
  have hfour : FourLabels p q r s := by
    simp only [List.nodup_cons, List.mem_cons, not_or, List.not_mem_nil, not_false_eq_true, and_true,
      List.nodup_nil] at hn
    exact ⟨hn.1.1, hn.2.2, hn.1.2.1, hn.1.2.2, hn.2.1.1, hn.2.1.2⟩
  have stay : ∃ solver', some solver = some solver' ∧ Invariant [t₁] [t₂] solver' ∧ Extends solver solver' :=
    ⟨solver, rfl, hI, Extends.refl _⟩
  unfold addInitialPathPair
  dsimp only
  split_ifs
  · exact stay
  · rw [hI.data₁, hI.data₂, areTwoPathsDisjoint_spec h₁ ht ht hp hq hr hs hfour.1 hfour.2.1, Option.bind_some]
    by_cases hd : PathsDisjoint (Forest.clusters [t₁]) p q r s
    · rw [if_pos (decide_eq_true hd), areTwoPathsDisjoint_spec h₂ ht' ht' (hS ▸ hp) (hS ▸ hq) (hS ▸ hr)
        (hS ▸ hs) hfour.1 hfour.2.1, Option.bind_some]
      by_cases hd' : PathsDisjoint (Forest.clusters [t₂]) p q r s
      · rw [if_pos (decide_eq_true hd')]
        exact stay
      · rw [if_neg (by simpa using hd')]
        obtain ⟨solver', hs', hI', he, -⟩ := hI.generatePathPair h₁ hfour hp hq hr hs hd
          (sound_pairClause (over_pair h₁ h₂ hS) ⟨hp, hq, hr, hs⟩ hd hd')
        exact ⟨solver', hs', hI', he⟩
    · rw [if_neg (by simpa using hd)]
      exact stay

/-- **`addInitialConstraints` meets no missing label and adds sound constraints.** -/
theorem addInitialConstraints_spec (hI : Invariant [t₁] [t₂] solver) :
    ∃ solver', addInitialConstraints solver = some solver' ∧ Invariant [t₁] [t₂] solver' ∧
      Extends solver solver' := by
  have fold : ∀ {ι : Type} {f : ι → IncrementalMAFSolver → Option IncrementalMAFSolver} {l : List ι}
      {solver}, (∀ a ∈ l, ∀ solver, Invariant [t₁] [t₂] solver → ∃ solver', f a solver = some solver' ∧
        Invariant [t₁] [t₂] solver' ∧ Extends solver solver') → Invariant [t₁] [t₂] solver →
      ∃ solver', l.foldlM (fun solver a => f a solver) solver = some solver' ∧ Invariant [t₁] [t₂] solver' ∧
        Extends solver solver' := by
    intro ι f l
    induction l with
    | nil => exact fun _ hI => ⟨_, rfl, hI, Extends.refl _⟩
    | cons a l ih =>
        intro solver hf hI
        obtain ⟨s₁, hs₁, hI₁, he₁⟩ := hf a (List.mem_cons_self ..) solver hI
        obtain ⟨s₂, hs₂, hI₂, he₂⟩ := ih (fun b hb => hf b (List.mem_cons_of_mem _ hb)) hI₁
        refine ⟨s₂, ?_, hI₂, he₁.trans he₂⟩
        rw [List.foldlM_cons, hs₁]
        exact hs₂
  have hlabels : solver.forestData₁.forestPtr.labels = t₁.labels := by
    rw [hI.data₁]
    exact (Finset.union_empty _)
  have hmem : ∀ x, x ∈ solver.forestData₁.forestPtr.labels.sort (· ≤ ·) ↔ x ∈ t₁.labels := fun x => by
    rw [Finset.mem_sort, hlabels]
  have hnodup := solver.forestData₁.forestPtr.labels.sort_nodup (· ≤ ·)
  unfold addInitialConstraints
  dsimp only
  obtain ⟨s₁, hs₁, hI₁, he₁⟩ := fold (f := addInitialTriple)
    (l := Scan.threes (solver.forestData₁.forestPtr.labels.sort (· ≤ ·))) (fun a ha s hs =>
      addInitialTriple_spec h₁ h₂ hS hs
        (isTriple_of_sublist hmem hnodup (Scan.sublist_of_mem_threes ha))) hI
  rw [hs₁, Option.bind_some]
  obtain ⟨s₂, hs₂, hI₂, he₂⟩ := fold (f := addInitialPathPair)
    (l := Scan.fours (solver.forestData₁.forestPtr.labels.sort (· ≤ ·))) (fun a ha s hs =>
      addInitialPathPair_spec h₁ h₂ hS hs (hnodup.sublist (Scan.sublist_of_mem_fours ha))
        fun x hx => (hmem x).1 ((Scan.sublist_of_mem_fours ha).subset hx)) hI₁
  exact ⟨s₂, hs₂, hI₂, he₁.trans he₂⟩

/-- **The invariant holds in every reachable state.** -/
theorem Reachable.invariant (h : Reachable caps [t₁] [t₂] solver) : Invariant [t₁] [t₂] solver := by
  induction h with
  | new => exact invariant_newSolver
  | initial _ hs ih =>
      obtain ⟨s', hs', hI, -⟩ := addInitialConstraints_spec h₁ h₂ hS ih
      rwa [Option.some.inj (hs.symm.trans hs')]
  | begin cntRounds objValue _ ih => exact ih.beginRound cntRounds objValue
  | checked _ _ hF hs ih =>
      obtain ⟨ok, s', hs', hI, -⟩ := checkMAF_spec h₁ h₂ hS (reconstructMAF_spec h₁ hF) _ ih
      rwa [(Prod.mk.inj (Option.some.inj (hs.symm.trans hs'))).2]

omit h₂ hS in
/-- **The key of a triple inside a tree of the candidate is never known.** -/
theorem Invariant.triple_notMem (hI : Invariant [t₁] T₂ solver) (hE : ∀ c ∈ solver.constraints, Hits E c)
    (hF : reconstructMAF E [t₁] = some F) {u : Tree} (hu : u ∈ F) (hx : x ∈ u.labels) (hy : y ∈ u.labels)
    (hz : z ∈ u.labels) : ({x, y, z} : Multiset Label) ∉ solver.addedTripleConstraints := by
  have hR := reconstructMAF_spec h₁ hF
  intro hk
  obtain ⟨x', -, y', -, z', -, hkey, hc⟩ := hI.triple _ hk
  have hset := congrArg Multiset.toFinset hkey
  rw [← tripleClause_congr (x := x) (y := y) (z := z) (by simpa using hset)] at hc
  rcases hits_tripleClause.1 (hE _ hc) with h | h | h
  · exact hR.not_cut hu hx hy h
  · exact hR.not_cut hu hy hz h
  · exact hR.not_cut hu hx hz h

omit h₂ hS in
/-- **Nor is that of a path pair** that is disjoint in the first tree. -/
theorem Invariant.pair_notMem (hI : Invariant [t₁] T₂ solver) (hE : ∀ c ∈ solver.constraints, Hits E c)
    (hF : reconstructMAF E [t₁] = some F) {u v : Tree} (hu : u ∈ F) (hv : v ∈ F) (hp : p ∈ u.labels)
    (hq : q ∈ u.labels) (hr : r ∈ v.labels) (hs : s ∈ v.labels) (hfour : FourLabels p q r s)
    (hdis : PathsDisjoint (Forest.clusters [t₁]) p q r s) :
    ({p, q, r, s} : Multiset Label) ∉ solver.addedPathPairConstraints := by
  have hR := reconstructMAF_spec h₁ hF
  intro hk
  obtain ⟨p', -, q', -, r', -, s', -, hkey, hfour', hdis', hc⟩ := hI.pair _ hk
  have hQ : ({p, q, r, s} : Finset Label) = {p', q', r', s'} := by
    have := congrArg Multiset.toFinset hkey
    simpa using this
  have hsub : ({p, q, r, s} : Finset Label) ⊆ t₁.labels := by
    intro w hw
    simp only [Finset.mem_insert, Finset.mem_singleton] at hw
    rcases hw with rfl | rfl | rfl | rfl
    exacts [hR.subset hu hp, hR.subset hu hq, hR.subset hv hr, hR.subset hv hs]
  rw [← pairClause_congr h₁.distinct (List.mem_singleton.2 rfl) hfour hfour' hQ hsub hdis hdis'] at hc
  rcases hits_pairClause.1 (hE _ hc) with h | h
  · exact hR.not_cut hu hp hq h
  · exact hR.not_cut hv hr hs h

/-- **A check that fails appends a constraint the candidate misses.** -/
theorem checkMAF_appends (hI : Invariant [t₁] [t₂] solver) (hE : ∀ c ∈ solver.constraints, Hits E c)
    (hF : reconstructMAF E [t₁] = some F) (hc : checkMAF caps F solver = some (false, solver')) :
    Invariant [t₁] [t₂] solver' ∧ ∃ new, solver'.constraints = solver.constraints ++ new ∧
      ∃ c ∈ new, c ∉ solver.constraints ∧ ¬Hits E c := by
  obtain ⟨ok, s', hs', hI', he, -, -, hmiss⟩ := checkMAF_spec h₁ h₂ hS (reconstructMAF_spec h₁ hF) caps hI
  obtain ⟨rfl, rfl⟩ := Prod.mk.inj (Option.some.inj (hc.symm.trans hs'))
  obtain ⟨new, hnew⟩ := he.constraints
  obtain ⟨c, hcmem, hcmiss⟩ := hmiss rfl
  rw [← hnew] at hcmem
  have hold : c ∉ solver.constraints := fun h => hcmiss (hE c h)
  exact ⟨hI', new, hnew.symm, c, (List.mem_append.1 hcmem).resolve_left hold, hold, hcmiss⟩

/-- **Every round that fails adds a constraint.** -/
theorem solveRound_false (hI : Invariant [t₁] [t₂] solver) {formula : Formula} {answer : Finset ℕ}
    (hf : buildSolver solver = some formula) (ha : Satisfies formula answer) {cntRounds : ℕ}
    (hr : solveRound caps (getNumVars [t₁]) cntRounds answer solver = some (false, solver')) :
    Invariant [t₁] [t₂] solver' ∧ solver.constraints.length < solver'.constraints.length := by
  obtain ⟨root, -, rfl⟩ := Option.map_eq_some_iff.1 hf
  have hlive : solver.forestData₁.forestPtr = [t₁] := by rw [hI.data₁]; rfl
  have hvars : getNumVars [t₁] = solver.forestData₁.built.ptrs.length := by rw [hI.data₁]; rfl
  have hE : ∀ c ∈ solver.constraints, Hits (extractCutEdges (getNumVars [t₁]) answer) c := by
    intro c hc
    obtain ⟨e, he, hec⟩ := ha.hard c hc
    refine ⟨e, List.mem_filter.2 ⟨List.mem_range.2 ?_, by simpa using he⟩, hec⟩
    rw [hvars]
    exact Finset.mem_range.1 (ha.subset he)
  obtain ⟨F, hF, hr⟩ := Option.bind_eq_some_iff.1 hr
  obtain ⟨⟨ok, s'⟩, hs', hr⟩ := Option.bind_eq_some_iff.1 hr
  rw [hlive] at hF
  cases ok with
  | true => obtain ⟨G, -, h⟩ := Option.map_eq_some_iff.1 hr; cases h
  | false =>
      obtain ⟨-, rfl⟩ := Prod.mk.inj (Option.some.inj hr)
      obtain ⟨hI', new, hnew, c, hc, -⟩ :=
        checkMAF_appends h₁ h₂ hS (hI.beginRound (cntRounds + 1) answer.card) hE hF hs'
      refine ⟨hI', ?_⟩
      have hpos := List.length_pos_of_mem hc
      have hold : (beginRound caps (cntRounds + 1) answer.card solver).constraints = solver.constraints := rfl
      rw [hnew, hold, List.length_append]
      omega

/-- **The loop ends before the timeout**, if that leaves a round for every constraint
there can be. -/
theorem solveLoop_ends {backend : Backend} (hb : backend.Sound) {rounds call cntRounds : ℕ}
    (hI : Invariant [t₁] [t₂] solver)
    (hrounds : t₁.labels.card ^ 3 + t₁.labels.card ^ 4 < solver.constraints.length + rounds) {result : SolveResult}
    (hs : solveLoop caps backend (getNumVars [t₁]) rounds call cntRounds solver = some (result, solver')) :
    result ≠ .timedOut := by
  induction rounds generalizing call cntRounds solver with
  | zero =>
      have := hI.length_le
      simp only [Forest.labels_cons, Forest.labels_nil, Finset.union_empty] at this
      omega
  | succ rounds ih =>
      unfold solveLoop at hs
      obtain ⟨formula, hf, hs⟩ := Option.bind_eq_some_iff.1 hs
      split at hs
      · obtain ⟨rfl, -⟩ := Prod.mk.inj (Option.some.inj hs)
        decide
      · next answer hanswer =>
        obtain ⟨⟨ok, s₁⟩, hr, hs⟩ := Option.bind_eq_some_iff.1 hs
        cases ok with
        | true =>
            obtain ⟨rfl, -⟩ := Prod.mk.inj (Option.some.inj hs)
            decide
        | false =>
            obtain ⟨hI₁, hlt⟩ := solveRound_false h₁ h₂ hS hI hf (hb _ _ _ hanswer) hr
            exact ih hI₁ (by omega) hs

/-- **The check of the incremental solver is right**, in every state it can be in
before a call has succeeded, whatever the caps.  It recognises agreement forests.
When it fails it appends a constraint that the candidate misses, and every
constraint it appends is met by the cut set of every agreement forest.  No key of
what a candidate can violate is known, so nothing is suppressed.  And `solve` ends
by itself. -/
theorem checkMAF_correct (caps : Caps) :
    (∀ solver, Reachable caps [t₁] [t₂] solver → ∀ E F, (∀ c ∈ solver.constraints, Hits E c) →
      reconstructMAF E [t₁] = some F →
      (∃ ok solver', checkMAF caps F solver = some (ok, solver') ∧
        (ok = true ↔ AgreementForest [[t₁], [t₂]] F.blocks) ∧
        (ok = false → ∃ new, solver'.constraints = solver.constraints ++ new ∧
          (∃ c ∈ new, c ∉ solver.constraints ∧ ¬Hits E c) ∧
          ∀ c ∈ new, Sound [t₁] [t₂] c ∧ ∀ E' F', reconstructMAF E' [t₁] = some F' →
            AgreementForest [[t₁], [t₂]] F'.blocks → Hits E' c)) ∧
      (∀ u ∈ F, ∀ x ∈ u.labels, ∀ y ∈ u.labels, ∀ z ∈ u.labels,
        ({x, y, z} : Multiset Label) ∉ solver.addedTripleConstraints) ∧
      ∀ u ∈ F, ∀ v ∈ F, ∀ p ∈ u.labels, ∀ q ∈ u.labels, ∀ r ∈ v.labels, ∀ s ∈ v.labels, FourLabels p q r s →
        PathsDisjoint (Forest.clusters [t₁]) p q r s →
        ({p, q, r, s} : Multiset Label) ∉ solver.addedPathPairConstraints) ∧
    ∀ backend : Backend, backend.Sound → ∃ N, ∀ rounds, N ≤ rounds → ∀ solver, Reachable caps [t₁] [t₂] solver →
      ∀ call result solver', solve caps backend rounds call solver = some (result, solver') →
        result ≠ .timedOut := by
  refine ⟨fun solver hr E F hE hF => ?_, fun backend hb => ?_⟩
  · have hI := hr.invariant h₁ h₂ hS
    refine ⟨?_, fun u hu x hx y hy z hz => hI.triple_notMem h₁ hE hF hu hx hy hz,
      fun u hu v hv p hp q hq r hr s hs hfour hdis => hI.pair_notMem h₁ hE hF hu hv hp hq hr hs hfour hdis⟩
    obtain ⟨ok, s', hs', hI', he, hiff, -, -⟩ := checkMAF_spec h₁ h₂ hS (reconstructMAF_spec h₁ hF) caps hI
    refine ⟨ok, s', hs', hiff, ?_⟩
    rintro rfl
    obtain ⟨-, new, hnew, c, hc, hold, hmiss⟩ := checkMAF_appends h₁ h₂ hS hI hE hF hs'
    refine ⟨new, hnew, ⟨c, hc, hold, hmiss⟩, fun d hd => ?_⟩
    have hsound : Sound [t₁] [t₂] d := hI'.sound d (hnew ▸ List.mem_append_right _ hd)
    exact ⟨hsound, fun E' F' hF' hA => hsound F'.blocks E' hA (reconstructMAF_spec h₁ hF').cutsInto⟩
  · refine ⟨t₁.labels.card ^ 3 + t₁.labels.card ^ 4 + 1, fun rounds hrounds solver hr call result s' hs => ?_⟩
    have hI := hr.invariant h₁ h₂ hS
    have hlive : solver.forestData₁.forestPtr = [t₁] := by rw [hI.data₁]; rfl
    unfold solve at hs
    dsimp only at hs
    rw [hlive] at hs
    obtain ⟨s₁, hs₁, hs⟩ := Option.bind_eq_some_iff.1 hs
    refine solveLoop_ends h₁ h₂ hS hb ?_ (by omega) hs
    split_ifs at hs₁
    · obtain ⟨s₂, hs₂, hI₂, -⟩ := addInitialConstraints_spec h₁ h₂ hS hI
      rwa [Option.some.inj (hs₁.symm.trans hs₂)]
    · rwa [← Option.some.inj hs₁]

end Invariants

/-- A leaf beside a cherry, and a tree with the other cherry. -/
def leafAndCherry : Tree × Tree :=
  (.node 0 (.leaf 1 1 ∅) (.node 2 (.leaf 3 2 ∅) (.leaf 4 3 ∅)),
    .node 5 (.node 6 (.leaf 7 1 ∅) (.leaf 8 2 ∅)) (.leaf 9 3 ∅))

/-- What is left of the first tree when the leaf `1` is cut off. -/
def leafAndCherryCut : Forest := [.leaf 1 1 ∅, .node 2 (.leaf 3 2 ∅) (.leaf 4 3 ∅)]

/-- Caps that stay as they are. -/
def constantCaps : Caps := ⟨fun cap _ => cap, fun cap _ _ => cap⟩

/-- Both trees are valid. -/
theorem valid_leafAndCherry : Forest.Valid [leafAndCherry.1] ∧ Forest.Valid [leafAndCherry.2] := by decide

/-- Both trees have the same labels. -/
theorem labels_leafAndCherry : leafAndCherry.1.labels = leafAndCherry.2.labels := by decide

/-- The initial constraint is that of the triple. -/
theorem addInitialConstraints_leafAndCherry :
    ∃ s, addInitialConstraints (newSolver [leafAndCherry.1] [leafAndCherry.2]) = some s ∧
      Invariant [leafAndCherry.1] [leafAndCherry.2] s ∧ s.constraints = [{1, 2, 3, 4}] := by
  obtain ⟨s, hs, hI, -⟩ := addInitialConstraints_spec valid_leafAndCherry.1 valid_leafAndCherry.2
    labels_leafAndCherry invariant_newSolver
  refine ⟨s, hs, hI, ?_⟩
  have hlabels : (Forest.labels [leafAndCherry.1]).sort (· ≤ ·) = [1, 2, 3] := by
    have hset : Forest.labels [leafAndCherry.1] = [1, 2, 3].toFinset := by decide
    rw [hset]
    exact (List.toFinset_sort (· ≤ ·) (by decide)).2 (by decide)
  have hrun : (addInitialConstraints (newSolver [leafAndCherry.1] [leafAndCherry.2])).map
      IncrementalMAFSolver.constraints = some [{1, 2, 3, 4}] := by
    unfold addInitialConstraints
    rw [show (newSolver [leafAndCherry.1] [leafAndCherry.2]).forestData₁.forestPtr = [leafAndCherry.1] from rfl,
      hlabels]
    decide +kernel
  rw [hs] at hrun
  exact Option.some.inj hrun

/-- The state after the initial constraints, of which there is one, and the candidate that cuts the edge `1`. -/
theorem checkMAF_correct_leafAndCherry :
    ∃ solver ok solver', addInitialConstraints (newSolver [leafAndCherry.1] [leafAndCherry.2]) = some solver ∧
      solver.constraints = [{1, 2, 3, 4}] ∧ checkMAF constantCaps leafAndCherryCut solver = some (ok, solver') ∧
      (ok = true ↔ AgreementForest [[leafAndCherry.1], [leafAndCherry.2]] leafAndCherryCut.blocks) ∧
      (ok = false → ∃ new, solver'.constraints = [{1, 2, 3, 4}] ++ new ∧ ∃ c ∈ new, ¬Hits [1] c) := by
  obtain ⟨solver, hs, -, hc⟩ := addInitialConstraints_leafAndCherry
  have hhits : ∀ c ∈ solver.constraints, Hits [1] c := by
    rw [hc]
    decide
  have hcut : reconstructMAF [1] [leafAndCherry.1] = some leafAndCherryCut := by decide +kernel
  obtain ⟨⟨ok, solver', hrun, hiff, hnew⟩, -⟩ := (checkMAF_correct valid_leafAndCherry.1 valid_leafAndCherry.2
    labels_leafAndCherry constantCaps).1 solver (.initial .new hs) [1] leafAndCherryCut hhits hcut
  refine ⟨solver, ok, solver', hs, hc, hrun, hiff, fun hok => ?_⟩
  obtain ⟨new, happend, ⟨c, hmem, -, hmiss⟩, -⟩ := hnew hok
  exact ⟨new, hc ▸ happend, c, hmem, hmiss⟩

end Maf.ILP
