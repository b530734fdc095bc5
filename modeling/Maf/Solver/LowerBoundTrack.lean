/-
# The answer of the lower-bound track

The lower-bound track of `src/startSolver.cpp` seeds the branching search with the solution of an
approximation, has the coordinator of `src/Solver/LowerBoundSolver.cpp` drive it in slices, and makes its
output by `unapplyReductions`.

Between two iterations the coordinator only arms the search: it reads the clock, sets the pause deadline and
raises the certified threshold.  So the states of a run are those of a session (`session_run`), and each of
them has a solution, which is what `finalize` replays when `solve` answers `true` (`answer_of_coordinator`).
-/

import Maf.Solver.CertifiedCeiling
import Maf.Solver.LowerBoundSolver
import Maf.Solver.SearchAnswers

namespace Maf

open Graph RuleObject

namespace Coordinator

section Session

variable {σ ρ τ : Type*} (R : RuleSystem σ ρ) (config : Configuration) (env : Environment)
  (ceiling : Context → ℤ → ℤ) (lb : IIncrementalLowerBound τ) {s₀ : Search σ ρ} {c d : Coordinator σ ρ τ}

/-- Reading the clock. -/
theorem session_tick (h : Search.Session R config env s₀ c.search) (k : ℕ) :
    Search.Session R config env s₀ (c.tick k).search :=
  .resume h rfl rfl rfl rfl rfl

/-- A bound that is adopted. -/
theorem session_adoptLowerBound (h : Search.Session R config env s₀ c.search) (candidate : ℤ) :
    Search.Session R config env s₀ (adoptLowerBound ceiling candidate c).search := by
  unfold adoptLowerBound
  split_ifs
  · exact .resume h rfl rfl rfl rfl rfl
  · exact h

/-- The start of a Branch slice. -/
theorem session_runBranchSlice (h : Search.Session R config env s₀ c.search) (seconds : ℚ)
    (agenda : Agenda) :
    Search.Session R config env s₀ (runBranchSlice env seconds agenda c).search :=
  .resume h rfl rfl rfl rfl rfl

/-- A Sat slice. -/
theorem session_runSatSlice (h : Search.Session R config env s₀ c.search) (seconds : ℚ)
    (agenda : Agenda) :
    Search.Session R config env s₀ (runSatSlice env ceiling lb seconds agenda c).search := by
  unfold runSatSlice
  dsimp only
  refine session_adoptLowerBound R config env ceiling ?_ _
  exact .resume h rfl rfl rfl rfl rfl

/-- **A turn iterates the search or arms it**, up to the call of `finalize`. -/
theorem Turn.session (ht : Turn R config env ceiling lb c d) (h : Search.Session R config env s₀ c.search)
    (hd : d.mode ≠ .returned true) : Search.Session R config env s₀ d.search := by
  cases ht with
  | scheduleDone hm => exact h
  | timeUp hm => exact session_tick R config env h 1
  | branch hm => exact session_runBranchSlice R config env (session_tick R config env h 1) _ _
  | sat hm => exact session_runSatSlice R config env ceiling lb (session_tick R config env h 1) _ _
  | budget hm ht => exact session_runBranchSlice R config env (session_tick R config env h 2) _ _
  | accept hm hc => exact session_tick R config env h 1
  | reject hm => exact session_tick R config env h 1
  | advance hm => exact .iterate _ h
  | finalize hm => exact absurd rfl hd
  | stay hm => exact h

/-- **The states of a run are those of a session**, up to the call of `finalize`. -/
theorem session_run {c₀ : Coordinator σ ρ τ} (h₀ : Search.Session R config env s₀ c₀.search) {n : ℕ}
    (hn : (run R config env ceiling lb c₀ n).mode ≠ .returned true) :
    Search.Session R config env s₀ (run R config env ceiling lb c₀ n).search := by
  induction n with
  | zero => exact h₀
  | succ n ih =>
      refine (turn_run R config env ceiling lb c₀ n).session R config env ceiling lb (ih fun hret => hn ?_) hn
      -- an answer that is given stays
      rw [run] at hret
      rw [run, Function.iterate_succ_apply']
      simp only [step, hret]

/-- The search enters the run as it was handed over. -/
theorem session_start (cfg : LowerBoundCoordinatorConfig) (initialLowerBound : ℤ)
    (search : Search σ ρ) (sat : τ) :
    Search.Session R config env search (start env ceiling lb cfg initialLowerBound search sat).search := by
  unfold start
  dsimp only
  refine session_adoptLowerBound R config env ceiling ?_ _
  exact .resume .start rfl rfl rfl rfl rfl

end Session

/-- The ceiling that the code computes certifies what it should. -/
theorem isCeiling_computedCeiling : IsCeiling Header.computedCeiling where
  congr ha hb := by
    funext v
    rw [Header.computedCeiling, Header.computedCeiling, ha, hb]
  mono ha := fun h => Header.Constants.certifiedCeiling_mono (zero_le_one.trans ha) h
  le := by
    intro c ha hb k
    have hexact : ⌊c.a * (k : ℤ)⌋ ≤ ⌊c.a * (k : ℤ) + 1 / 10 ^ 9⌋ := Int.floor_le_floor (by linarith)
    have hle := isCeiling_certifiedCeiling.le ha hb k
    rw [Context.certifiedCeiling] at hle
    rw [Header.computedCeiling, Header.Constants.certifiedCeiling]
    exact hle.trans (Int.add_le_add_right hexact _)

section Runs

variable {e : Surroundings} {width : ℕ} {m₀ : Memory} {Fs : List Forest} {X : Finset Label}
  {rules : List IsApplicableFn} {config config' : Configuration} {env env' : Environment}
  {a₀ a t : Search (Option Memory) (Option RuleObject)} {τ : Type*} {lb : IIncrementalLowerBound τ}

/-- **The lower-bound track emits an agreement forest.**  The coordinator drives a search that is seeded by an
approximation, with any schedule and any clock, and with any bounds that are at most `k*`.  When `solve` answers
`true`, `unapplyReductions` leaves an agreement forest of the instance in forest 0, with no more trees than the
approximation had; and unless a slice exhausted the search space, with no more than the ceiling of `k*` that
the code computes, which is `⌊a·k*⌋ + b` if `a·k*` does not lie within `1e-9` below an integer.

Both searches are in unbounded mode, and without a cluster root label: their weights are numbers of trees. -/
theorem answer_of_coordinator (hm₀ : m₀.IsInstance width e.fuel Fs X) (he : e.Fits X)
    (hw : ∀ f, e.weightFunction f = f.roots.length) (hb : config.boundedDepthSearch = false)
    (hb' : config'.boundedDepthSearch = false) (hflag : env.timeoutFlag = none) (ha₀ : a₀.Fresh m₀)
    (ha : Search.Session (ruleSystem e (approximationRules e)) config' env' a₀ a)
    (hsol : a.solutionBranch ≠ [])
    (hrules : rules = defaultRules e ∨ rules = approximationRules e ∨ rules = basicRuleList e)
    (ht : t.Starts m₀)
    (hone : 1 ≤ t.context.a) (hzero : 0 ≤ t.context.b) (cfg : LowerBoundCoordinatorConfig)
    {initialLowerBound : ℤ}
    (hthr : t.context.certifiedThreshold = Header.computedCeiling t.context initialLowerBound)
    (hinit : initialLowerBound ≤ kStar Fs) {sat : τ}
    {c : ℕ → Coordinator (Option Memory) (Option RuleObject) τ}
    (hc : c = run (ruleSystem e rules) config env Header.computedCeiling lb (start env Header.computedCeiling lb cfg
      initialLowerBound (Search.seedSolution
        (Search.seedFromApproximation (ruleSystem e (approximationRules e)) config' rootsSize a).1.1
        (Search.seedFromApproximation (ruleSystem e (approximationRules e)) config' rootsSize a).1.2 t) sat))
    (hreported : ∀ n, lb.getCurrentLowerBound (c n).sat ≤ kStar Fs) {n : ℕ}
    (hn : (c n).mode = .returned true) :
    ∃ M f F G, (Search.unapplyReductions (ruleSystem e rules) isReduction (c n).search).inst = some M ∧
      M.forests[0]? = some f ∧ Held width e.fuel f G ∧ Fs[0]? = some F ∧ F.Induced G ∧ G.labels = X ∧
      AgreementForest Fs G.blocks ∧
      G.length ≤ (Search.seedFromApproximation (ruleSystem e (approximationRules e)) config' rootsSize a).1.2 ∧
      ((G.length : ℤ) ≤ Header.computedCeiling t.context (kStar Fs) ∧
          (Int.fract (t.context.a * kStar Fs) < 1 - 1 / 10 ^ 9 →
            (G.length : ℤ) ≤ ⌊t.context.a * kStar Fs⌋ + t.context.b) ∨
        ∃ m < n, Exhausts (ruleSystem e rules) config env (c m)) := by
  set seed := Search.seedFromApproximation (ruleSystem e (approximationRules e)) config' rootsSize a
  set s₀ := Search.seedSolution seed.1.1 (seed.1.2 : ℚ) t
  have hceil := isCeiling_computedCeiling
  have hloop := start_mode env Header.computedCeiling lb cfg initialLowerBound s₀ sat
  have hsat : lb.getCurrentLowerBound sat ≤ kStar Fs := by
    have h := hreported 0
    rwa [hc, run_zero, start_sat] at h
  have hthr₀ : s₀.context.certifiedThreshold = Header.computedCeiling s₀.context initialLowerBound := hthr
  have hsound := sound_start env Header.computedCeiling lb Fs hceil cfg hthr₀ hinit hsat
  subst hc
  obtain ⟨m, hm, hfin, hsearch⟩ := exists_finalizing (ruleSystem e rules) config env Header.computedCeiling lb hloop hn
  have hsession : Search.Session (ruleSystem e rules) config env s₀
      (run (ruleSystem e rules) config env Header.computedCeiling lb
        (start env Header.computedCeiling lb cfg initialLowerBound s₀ sat) (m + 1)).search :=
    session_run (ruleSystem e rules) config env Header.computedCeiling lb
      (session_start _ _ _ _ _ cfg initialLowerBound s₀ sat) (by rw [hfin]; exact Mode.noConfusion)
  obtain ⟨-, M, f, F, G, hrun, hf, hheld, hF, hind, hlab, hagree, hweight, hle⟩ :=
    agreementForest_of_seed hm₀ he hw hb hb' ha₀ ha hsol hrules ht hsession
  refine ⟨M, f, F, G, hsearch ▸ hrun, hf, hheld, hF, hind, hlab, hagree, hle, ?_⟩
  rcases (turn_run (ruleSystem e rules) config env _ lb _ m).finalizing _ _ _ _ _ hb hflag hfin with hex | hwithin
  · exact Or.inr ⟨m, by omega, hex⟩
  · have hone₀ : 1 ≤ s₀.context.a := hone
    have hzero₀ : 0 ≤ s₀.context.b := hzero
    have hrun := sound_run _ _ _ _ _ Fs hceil hone₀ hsound hreported (m + 1)
    have hsize : (G.length : ℤ) ≤ Header.computedCeiling t.context (kStar Fs) :=
      hrun.size_le _ Fs hceil hone₀ hzero₀ hweight (Or.inr hwithin)
    refine Or.inl ⟨hsize, fun hfract => ?_⟩
    -- here the code computes the exact ceiling
    have hexact := Header.certifiedCeiling_eq_context hfract
    rw [Context.certifiedCeiling] at hexact
    exact hsize.trans hexact.le

/-- The search of the track on `fiveLabels`, with a solution of `3/2 · k* + 2` trees asked for. -/
def fiveLabelsTarget : Search (Option Memory) (Option RuleObject) :=
  { inst := some (Memory.ofForests 1 fiveLabels), context := { a := 3 / 2, b := 2, certifiedThreshold := 3 } }

/-- The seed that an approximation of `fiveLabels` leaves. -/
def fiveLabelsSeed (a : Search (Option Memory) (Option RuleObject)) : (List (Option RuleObject) × ℕ) × Option Memory :=
  Search.seedFromApproximation (ruleSystem fiveLabelsSurroundings (approximationRules fiveLabelsSurroundings)) {}
    rootsSize a

/-- A run on `fiveLabels` with one Sat slice, which reports the bound 2. -/
def fiveLabelsTrack (a : Search (Option Memory) (Option RuleObject)) :
    ℕ → Coordinator (Option Memory) (Option RuleObject) ℤ :=
  run (ruleSystem fiveLabelsSurroundings (defaultRules fiveLabelsSurroundings)) {} ticking Header.computedCeiling
    boundTwo (start ticking Header.computedCeiling boundTwo ⟨[⟨.sat, 1⟩], 100, 0⟩ 1
      (Search.seedSolution (fiveLabelsSeed a).1.1 (fiveLabelsSeed a).1.2 fiveLabelsTarget) 1)

/-- The report raises the threshold to 5, and the seed certifies. -/
theorem fiveLabelsTrack_mode {a : Search (Option Memory) (Option RuleObject)} (h : (fiveLabelsSeed a).1.2 ≤ 5) :
    (fiveLabelsTrack a 2).mode = .returned true := by
  have hfloor : ⌊((10 : ℚ) ^ 9)⁻¹⌋ = 0 := by
    rw [Int.floor_eq_iff]
    norm_num
  have hcertifies : (((fiveLabelsSeed a).1.2 : ℚ) : WithTop ℚ) ≤ ((3 + 2 : ℚ) : WithTop ℚ) := by
    rw [WithTop.coe_le_coe]
    exact_mod_cast h
  have hmode : (fiveLabelsTrack a 1).mode = .finalizing := by
    simp [fiveLabelsTrack, run, start, adoptLowerBound, step, scheduleStep, runSatSlice, remaining, Search.now,
      boundTwo,
      ticking, incumbentCertifies, certifiedThreshold, Search.seedSolution, fiveLabelsTarget, Header.computedCeiling,
      Header.Constants.certifiedCeiling, hfloor]
    exact_mod_cast hcertifies
  change (step _ _ _ _ _ (fiveLabelsTrack a 1)).mode = _
  simp only [step, hmode]

/-- The trees of a forest have a label each. -/
theorem length_le_card_labels {F : Forest} (hF : F.Distinct) : F.length ≤ F.labels.card := by
  induction F with
  | nil => exact Nat.zero_le _
  | cons t F ih =>
      have ht : 1 ≤ t.labels.card := Finset.card_pos.2 ⟨_, t.least_mem_labels⟩
      rw [Forest.labels, Finset.card_union_of_disjoint hF.2.2, List.length_cons]
      have := ih hF.2.1
      omega

/-- **A run on `fiveLabels`**: the seed of an approximation, and a Sat slice after which it certifies. -/
theorem answer_of_coordinator_fiveLabels :
    ∃ a, Search.Session (ruleSystem fiveLabelsSurroundings (approximationRules fiveLabelsSurroundings)) {}
        { clock := fun _ => 0 } fiveLabelsStart a ∧ a.solutionBranch ≠ [] ∧
      (fiveLabelsTrack a 2).mode = .returned true ∧
      ∃ M f F G, (Search.unapplyReductions (ruleSystem fiveLabelsSurroundings (defaultRules fiveLabelsSurroundings))
          isReduction (fiveLabelsTrack a 2).search).inst = some M ∧
        M.forests[0]? = some f ∧ Held 1 9 f G ∧ fiveLabels[0]? = some F ∧ F.Induced G ∧
        Forest.labels G = {1, 2, 3, 4, 5} ∧ AgreementForest fiveLabels (Forest.blocks G) ∧
        List.length G ≤ (fiveLabelsSeed a).1.2 ∧
        ((List.length G : ℤ) ≤ Header.computedCeiling fiveLabelsTarget.context (kStar fiveLabels) ∧
            (Int.fract ((3 / 2 : ℚ) * kStar fiveLabels) < 1 - 1 / 10 ^ 9 →
              (List.length G : ℤ) ≤ ⌊(3 / 2 : ℚ) * kStar fiveLabels⌋ + 2) ∨
          ∃ m < 2, Exhausts (ruleSystem fiveLabelsSurroundings (defaultRules fiveLabelsSurroundings)) {} ticking
            (fiveLabelsTrack a m)) ∧ 2 ≤ List.length G := by
  obtain ⟨-, -, a, ha, -, hsol⟩ := exists_exhausted_fiveLabels (Or.inr (Or.inl rfl))
  -- the seed has at most five trees
  have hseed : (fiveLabelsSeed a).1.2 ≤ 5 := by
    have hfirst : Search.Session (ruleSystem fiveLabelsSurroundings (defaultRules fiveLabelsSurroundings)) {} ticking
        (Search.seedSolution (fiveLabelsSeed a).1.1 ((fiveLabelsSeed a).1.2 : ℚ) fiveLabelsTarget)
        (Search.seedSolution (fiveLabelsSeed a).1.1 ((fiveLabelsSeed a).1.2 : ℚ) fiveLabelsTarget) := .start
    obtain ⟨-, M, f, F, G, -, -, hheld, -, -, hlab, -, hweight, -⟩ := agreementForest_of_seed isInstance_fiveLabels
      fits_fiveLabels (fun _ => rfl) rfl rfl fresh_fiveLabelsStart ha hsol (Or.inl rfl) ⟨rfl, rfl, rfl⟩ hfirst
    have hlen : (fiveLabelsSeed a).1.2 = G.length := by
      have h := WithTop.coe_injective hweight
      exact_mod_cast h
    rw [hlen]
    refine (length_le_card_labels hheld.wellFormed.valid.distinct).trans ?_
    rw [hlab]
    decide
  have hmode := fiveLabelsTrack_mode hseed
  have hreported : ∀ n, boundTwo.getCurrentLowerBound (fiveLabelsTrack a n).sat ≤ kStar fiveLabels := fun n =>
    (run_sat_le_two _ _ _ _ ((start_sat ticking Header.computedCeiling boundTwo _ 1 _ 1).trans_le (by norm_num))
      n).trans
      (by exact_mod_cast two_le_kStar_fiveLabels)
  obtain ⟨M, f, F, G, hrun, hf, hheld, hF, hind, hlab, hagree, hle, hceil⟩ := answer_of_coordinator
    isInstance_fiveLabels fits_fiveLabels (fun _ => rfl) rfl rfl rfl fresh_fiveLabelsStart ha hsol (Or.inl rfl)
    (t := fiveLabelsTarget) ⟨rfl, rfl, rfl⟩ (by norm_num [fiveLabelsTarget]) (by norm_num [fiveLabelsTarget])
    ⟨[⟨.sat, 1⟩], 100, 0⟩ (by with_unfolding_all decide +kernel)
    ((by norm_num : (1 : ℤ) ≤ 2).trans (by exact_mod_cast two_le_kStar_fiveLabels)) rfl hreported hmode
  exact ⟨a, ha, hsol, hmode, M, f, F, G, hrun, hf, hheld, hF, hind, hlab, hagree, hle, hceil,
    two_le_kStar_fiveLabels.trans (kStar_le_length hagree)⟩

end Runs

end Coordinator

end Maf
