/-
# A search that starts from an approximation

`seedFromApproximation` of `src/startSolver.cpp` searches with the rules of the approximation, finalizes,
and rolls the solution back off the instance.  None of these rules branches, so a solution is found on the
way down and the first leaf is the last (`Straight`); the rules that were rolled back are the clones that
were recorded, and the instance is as it was (`seed_of_approximation`).

The search that is seeded with them keeps an answer from its first iteration on: whatever stops it, it has
a solution with no more trees than the approximation (`agreementForest_of_seed`).
-/

import Maf.Solver.UnapplyReductions

namespace Maf

open Graph RuleObject

namespace Search

variable {σ ρ : Type*} (R : RuleSystem σ ρ) (config : Configuration) (env : Environment)

/-- The weight of the incumbent after a branch is rolled back. -/
theorem context_rollBackBranch (s : Search σ ρ) : (rollBackBranch R env s).2.context = s.context := by
  have htime := kept_timeoutReached env s
  unfold rollBackBranch unwindAppliedRules
  dsimp only
  split_ifs <;> exact htime.context

/-- The end of the search space leaves the weight alone. -/
theorem bestSolutionWeight_searchSpaceFinished (b : Bool) (s : Search σ ρ) :
    (searchSpaceFinished config b s).2.context.bestSolutionWeight = s.context.bestSolutionWeight := by
  unfold searchSpaceFinished
  split_ifs <;> rfl

/-- Rolling a branch back leaves the weight alone. -/
theorem bestSolutionWeight_rollBack (s : Search σ ρ) :
    (searchSpaceFinished config (rollBackBranch R env s).1 (rollBackBranch R env s).2).2.context.bestSolutionWeight =
      s.context.bestSolutionWeight := by
  rw [bestSolutionWeight_searchSpaceFinished, context_rollBackBranch]

/-- **The incumbent never gets worse.** -/
theorem bestSolutionWeight_advanceIteration (madeProgressThisCall : Bool) (s : Search σ ρ) :
    (advanceIteration R config env madeProgressThisCall s).2.context.bestSolutionWeight ≤
      s.context.bestSolutionWeight := by
  have hpause := kept_pauseCheck env madeProgressThisCall s
  have happly : ∀ u : Search σ ρ, (applyRule R u).2.2.context = u.context := fun u => by
    unfold applyRule nextRule
    cases u.applyNext <;> rfl
  rcases advanceIteration_cases R config env madeProgressThisCall s with
    ⟨-, heq⟩ | ⟨-, heq⟩ | ⟨-, heq⟩ | ⟨-, -, -, code, rule, u, -, hu, heq⟩
  · rw [heq]
  · rw [heq, (kept_timeoutReached env s).context]
  · rw [heq, hpause.context]
  · have hcontext : u.context = s.context := by
      have := happly (pauseCheck env madeProgressThisCall (timeoutReached env s).2).2
      rw [hu, hpause.context] at this
      exact this
    rw [heq, ← hcontext]
    cases code with
    | immediateReturn => exact (bestSolutionWeight_searchSpaceFinished config true u).le
    | «continue» => exact le_rfl
    | continueWithRuleSuggestion => exact le_rfl
    | cutBranch => exact (bestSolutionWeight_rollBack R config env u).le
    | endBranchWithSolutionCandidate =>
        unfold handleReturnCode
        dsimp only
        split_ifs
        · exact le_rfl
        · rw [bestSolutionWeight_rollBack]
          unfold checkSolutionCandidate
          dsimp only
          split_ifs with hlt
          · exact hlt.le
          · exact le_rfl

/-- The incumbent of a session is no worse than at the start. -/
theorem Session.bestSolutionWeight_le {s₀ s : Search σ ρ} (h : Session R config env s₀ s) :
    s.context.bestSolutionWeight ≤ s₀.context.bestSolutionWeight := by
  induction h with
  | start => exact le_rfl
  | iterate b _ ih => exact (bestSolutionWeight_advanceIteration R config env b _).trans ih
  | resume _ _ _ _ _ hweight ih => exact hweight.le.trans ih

end Search

/-- **Rules that do not branch.** -/
def Straight (rs : List (Option RuleObject)) : Prop := ∀ r, some r ∈ rs → r.isBranchingRule = false

/-- An empty branch is straight. -/
theorem straight_nil : Straight [] := fun _ h => absurd h List.not_mem_nil

/-- A search in which nothing branches, and nothing is left to be explored. -/
structure StraightSearch (s : Search (Option Memory) (Option RuleObject)) : Prop where
  appliedRules : Straight s.appliedRules
  applyNext : s.applyNext = []
  solutionBranch : Straight s.solutionBranch

section Straight

variable {e : Surroundings} {width t : ℕ} {m₀ : Memory} {config : Configuration} {env : Environment}
  {s : Search (Option Memory) (Option RuleObject)}

/-- **The rules of the approximation** do not branch. -/
theorem isBranchingRule_of_approximationRules {c : Context} {m : Memory} {rule : Rule}
    (h : firstApplicable c m (approximationRules e) = some rule) :
    RuleObject.isBranchingRule { rule := rule } = false := by
  obtain ⟨f, hf, hsome⟩ := mem_of_firstApplicable h
  simp only [approximationRules, List.mem_cons, List.not_mem_nil, or_false] at hf
  rcases hf with rfl | rfl | rfl | rfl
  · simp only [CheckSingleVertexTreesRule.isApplicable, Option.bind_eq_bind, Option.bind_eq_some_iff] at hsome
    obtain ⟨f, -, hsome⟩ := hsome
    split_ifs at hsome
    · obtain rfl := Option.some.inj (Option.some.inj hsome)
      rfl
    · cases hsome
  · simp only [SingleVertexTreePropagationRule.isApplicable, Option.bind_eq_bind, Option.bind_eq_some_iff] at hsome
    obtain ⟨f, -, hsome⟩ := hsome
    split_ifs at hsome
    · cases hsome
    · obtain rfl := Option.some.inj (Option.some.inj hsome)
      rfl
  · dsimp only at hsome
    cases hread : m.read e.fuel with
    | nil =>
        rw [hread] at hsome
        cases hsome
    | cons f0 fs =>
        rw [hread] at hsome
        unfold SiblingRuleFactory.approximationRule at hsome
        dsimp only at hsome
        cases hget : SiblingRuleFactory.getSiblings e.heuristicLabelOrder f0 with
        | none =>
            rw [hget] at hsome
            cases hsome
        | some pair =>
            rw [hget] at hsome
            simp only [Option.bind_eq_bind, Option.bind_eq_some_iff] at hsome
            obtain ⟨siblings, -, hsome⟩ := hsome
            obtain rfl := Option.some.inj (Option.some.inj hsome)
            split_ifs <;> rfl
  · obtain rfl := Option.some.inj (Option.some.inj hsome)
    rfl

/-- A rule that does not branch suggests nothing. -/
theorem nextRuleSuggestion_eq_nil {r : RuleObject} (h : r.isBranchingRule = false) :
    r.nextRuleSuggestion = [] := by
  unfold nextRuleSuggestion
  cases hr : r.rule with
  | abcBranching a c bs =>
      rw [isBranchingRule, maxBranch, hr] at h
      cases h
  | _ => rfl

/-- **Rolled back to the start**: no rule has another branch. -/
theorem Branch.rollBackLoop_straight (rules : List IsApplicableFn) {rs : List (Option RuleObject)}
    {m : Memory}
    (h : Branch width e.fuel m₀ rs m) (hs : Straight rs) :
    Search.rollBackLoop (ruleSystem e rules) rs (some m) = (true, [], [], some m₀) := by
  induction h with
  | nil => rfl
  | @cons rs r code m m' _ _ _ _ hundo _ ih =>
      have hstep : (ruleSystem e rules).unapply (some r) (some m') =
          (some { rule := r.rule, branch := r.branch }, some m) := by
        simp only [ruleSystem, Option.bind_eq_bind, Option.bind_some, hundo]
      have hbr : (ruleSystem e rules).isBranchingRule (some { rule := r.rule, branch := r.branch }) = false :=
        (isBranchingRule_of_rule rfl).trans (hs r (List.mem_cons_self ..))
      rw [Search.rollBackLoop, hstep]
      dsimp only
      rw [hbr, Bool.false_and, if_neg Bool.false_ne_true]
      exact ih fun q hq => hs q (List.mem_cons_of_mem _ hq)

/-- A straight branch is rolled back to the start. -/
theorem StraightSearch.rollBackBranch (rules : List IsApplicableFn) {m : Memory}
    (hinst : s.inst = some m)
    (hbranch : Branch width e.fuel m₀ s.appliedRules m) (happlied : Straight s.appliedRules)
    (hsol : Straight s.solutionBranch) :
    StraightSearch (Search.rollBackBranch (ruleSystem e rules) env s).2 := by
  have htime := Search.kept_timeoutReached env s
  unfold Search.rollBackBranch
  dsimp only
  split_ifs
  · exact ⟨straight_nil, rfl, htime.solutionBranch ▸ hsol⟩
  · rw [htime.inst, htime.appliedRules, hinst, hbranch.rollBackLoop_straight rules happlied]
    exact ⟨straight_nil, rfl, htime.solutionBranch ▸ hsol⟩

/-- The end of the search space leaves a straight search straight. -/
theorem StraightSearch.searchSpaceFinished {b : Bool} (h : StraightSearch s) :
    StraightSearch (Search.searchSpaceFinished config b s).2 := by
  unfold Search.searchSpaceFinished
  split_ifs
  · exact ⟨h.appliedRules, h.applyNext, h.solutionBranch⟩
  · exact h
  · exact h

/-- **One iteration of the approximation** goes straight down, or back to the start. -/
theorem StraightSearch.advanceIteration (hiter : ∀ m l, (e.iterated m l).Perm l) (ht : t ≠ 0)
    (madeProgressThisCall : Bool) (h : SearchInvariant e width t m₀ s)
    (hb : BranchInvariant e width m₀ s) (hs : StraightSearch s) : StraightSearch
      (Search.advanceIteration (ruleSystem e (approximationRules e)) config env madeProgressThisCall s).2 := by
  have hpause := Search.kept_pauseCheck env madeProgressThisCall s
  have hkept : ∀ {u : Search (Option Memory) (Option RuleObject)}, Search.Kept s u → StraightSearch u := fun hu =>
    ⟨hu.appliedRules ▸ hs.appliedRules, hu.applyNext.trans hs.applyNext, hu.solutionBranch ▸ hs.solutionBranch⟩
  rcases Search.advanceIteration_cases (ruleSystem e (approximationRules e)) config env madeProgressThisCall s with
    ⟨-, heq⟩ | ⟨-, heq⟩ | ⟨-, heq⟩ | ⟨-, -, -, code, rule, u, -, happly, heq⟩
  · rw [heq]
    exact hs
  · rw [heq]
    exact hkept (Search.kept_timeoutReached env s)
  · rw [heq]
    exact hkept hpause
  · rw [heq]
    have hs' := hkept hpause
    have h' := h.kept hpause
    have hb' := hb.kept hpause
    set v := (Search.pauseCheck env madeProgressThisCall (Search.timeoutReached env s).2).2
    obtain ⟨_, _, r, code₁, r₁, m₁, hinst, -, hnext, -, happ, hstep, -, -⟩ :=
      h'.applyRule (selectsAlways hiter ht (Or.inr (Or.inl rfl)))
    obtain ⟨code', r', m', hstep', hbranch, hgoes, -, -⟩ :=
      hb'.applyRule hiter ht (Or.inr (Or.inl rfl)) h'
    obtain ⟨rfl, hr, hu⟩ := Prod.mk.inj (happly.symm.trans hstep') |>.imp id Prod.mk.inj
    obtain ⟨-, hr', -⟩ := Prod.mk.inj (hstep'.symm.trans hstep) |>.imp id Prod.mk.inj
    obtain rfl := Option.some.inj hr'
    subst hr
    -- the rule was selected, not queued
    have hplain : r'.isBranchingRule = false := by
      refine (isBranchingRule_of_rule happ.rule).trans ?_
      unfold Search.nextRule at hnext
      rw [hs'.applyNext, hinst] at hnext
      obtain ⟨rule, hrule, hr⟩ := Option.bind_eq_some_iff.1 hnext
      obtain rfl := Option.some.inj hr
      exact isBranchingRule_of_approximationRules hrule
    have happlied : Straight (some r' :: v.appliedRules) := by
      intro q hq
      rcases List.mem_cons.1 hq with heq | hq
      · obtain rfl := Option.some.inj heq
        exact hplain
      · exact hs'.appliedRules q hq
    have hroll : ∀ {w : Search (Option Memory) (Option RuleObject)}, w.inst = u.inst →
        w.appliedRules = u.appliedRules →
        Straight w.solutionBranch → StraightSearch (Search.searchSpaceFinished config
          (Search.rollBackBranch (ruleSystem e (approximationRules e)) env w).1
          (Search.rollBackBranch (ruleSystem e (approximationRules e)) env w).2).2 := by
      intro w hw happlied' hsol
      have hinst' : w.inst = some m' := by rw [hw, hu]
      have hrules' : w.appliedRules = some r' :: v.appliedRules := by rw [happlied', hu]
      exact (StraightSearch.rollBackBranch _ hinst' (hrules' ▸ hbranch) (hrules' ▸ happlied) hsol).searchSpaceFinished
    have hu₀ : Straight u.solutionBranch := by
      rw [hu]
      exact hs'.solutionBranch
    cases code with
    | immediateReturn => exact absurd rfl hgoes
    | «continue» =>
        rw [hu]
        exact ⟨happlied, rfl, hs'.solutionBranch⟩
    | continueWithRuleSuggestion =>
        rw [hu]
        refine ⟨happlied, ?_, hs'.solutionBranch⟩
        change [] ++ ((some r').map RuleObject.nextRuleSuggestion |>.getD []).map some = []
        rw [Option.map_some, Option.getD_some, nextRuleSuggestion_eq_nil hplain]
        rfl
    | endBranchWithSolutionCandidate =>
        unfold Search.handleReturnCode
        dsimp only
        split_ifs
        · rw [hu]
          exact ⟨happlied, rfl, hs'.solutionBranch⟩
        · refine hroll ?_ ?_ ?_
          all_goals
            unfold Search.checkSolutionCandidate
            dsimp only
            split_ifs
          any_goals rfl
          · intro q hq
            obtain ⟨q', hq', heq⟩ := List.mem_map.1 (List.mem_reverse.1 hq)
            obtain ⟨q'', rfl, rfl⟩ := Option.map_eq_some_iff.1 heq
            rw [hu] at hq'
            exact (isBranchingRule_of_rule rfl).trans (happlied q'' hq')
          · exact hu₀
    | cutBranch => exact hroll rfl rfl hu₀

/-- **An approximation never branches.** -/
theorem StraightSearch.of_session {Fs : List Forest} {X : Finset Label}
    (hm₀ : m₀.IsInstance width e.fuel Fs X) (he : e.Fits X)
    {s₀ : Search (Option Memory) (Option RuleObject)} (hs₀ : s₀.Starts m₀) (hsol : s₀.solutionBranch = [])
    (h : Search.Session (ruleSystem e (approximationRules e)) config env s₀ s) : StraightSearch s := by
  have ht : Fs.length ≠ 0 := fun h => hm₀.nonempty (List.length_eq_zero_iff.1 h)
  have hrules : approximationRules e = defaultRules e ∨ approximationRules e = approximationRules e ∨
    approximationRules e = basicRuleList e := Or.inr (Or.inl rfl)
  induction h with
  | start =>
      refine ⟨?_, hs₀.applyNext, ?_⟩
      · rw [hs₀.appliedRules]
        exact straight_nil
      · rw [hsol]
        exact straight_nil
  | iterate b hsession ih =>
      exact ih.advanceIteration he.iterated ht b (SearchInvariant.of_search hm₀ he hrules hs₀ hsession.reachable)
        (BranchInvariant.of_session hm₀ he hrules hs₀ hsession)
  | resume _ hinst happlied hnext hsol' _ ih =>
      exact ⟨happlied ▸ ih.appliedRules, hnext.trans ih.applyNext, hsol' ▸ ih.solutionBranch⟩

end Straight

section Unapply

variable {width fuel : ℕ} {m₀ m m' : Memory} {rs : List (Option RuleObject)}

/-- Undoing changes keeps the number of forests. -/
theorem length_undoChanges {cs : List Change} {forests forests' : List Store}
    (h : undoChanges fuel cs forests = some forests') : forests'.length = forests.length := by
  induction cs generalizing forests with
  | nil =>
      obtain rfl := Option.some.inj h
      rfl
  | cons c cs ih =>
      obtain ⟨forests₁, hundo, hrest⟩ := Option.bind_eq_some_iff.1 h
      refine (ih hrest).trans ?_
      cases c with
      | deleteEdge i action =>
          obtain ⟨s, -, hundo⟩ := Option.bind_eq_some_iff.1 hundo
          obtain ⟨s', -, hset⟩ := Option.bind_eq_some_iff.1 hundo
          obtain rfl := Option.some.inj hset
          exact List.length_set
      | collapseSubtree i action =>
          obtain ⟨s, -, hundo⟩ := Option.bind_eq_some_iff.1 hundo
          obtain ⟨s', -, hset⟩ := Option.bind_eq_some_iff.1 hundo
          obtain rfl := Option.some.inj hset
          exact List.length_set

/-- Unapplying a rule keeps the number of forests. -/
theorem length_unapply {r r' : RuleObject} (h : r.unapply fuel m' = some (r', m)) :
    m.forests.length = m'.forests.length := by
  unfold unapply at h
  split_ifs at h
  · obtain ⟨-, rfl⟩ := Prod.mk.inj (Option.some.inj h)
    rfl
  · obtain ⟨forests, hundo, h⟩ := Option.bind_eq_some_iff.1 h
    have hlen := length_undoChanges hundo
    dsimp only at h
    split_ifs at h
    all_goals
      obtain ⟨-, rfl⟩ := Prod.mk.inj (Option.some.inj h)
      exact hlen

/-- A branch keeps the number of forests. -/
theorem Branch.length_forests (h : Branch width fuel m₀ rs m) :
    m.forests.length = m₀.forests.length := by
  induction h with
  | nil => rfl
  | cons _ _ _ _ hundo _ ih => exact (length_unapply hundo).symm.trans ih

/-- An answer that nothing has to be taken back for: its trees are those of forest 0. -/
theorem Answers.length_roots {k : ℕ} (h : Answers width fuel m m k) (hne : m.forests ≠ []) :
    ∃ f, m.forests.head? = some f ∧ f.roots.length = k := by
  obtain ⟨X, Fs, Hs, hm, hX, hans⟩ := h
  have hFs : Fs ≠ [] := fun hnil => hne (List.length_eq_zero_iff.1 (by rw [hm.length, hnil]; rfl))
  obtain ⟨f, G, -, hf, hheld, -, -, hk, -⟩ :=
    Answers.agreementForest hm hX hFs (M := m) ⟨X, Fs, Hs, hm, hX, hans⟩
  refine ⟨f, by rwa [List.head?_eq_getElem?], ?_⟩
  rw [hheld.wellFormed.stored.roots, List.length_map, hk]

end Unapply

section Runs

variable {e : Surroundings} {width : ℕ} {m₀ : Memory} {Fs : List Forest} {X : Finset Label}
  {rules : List IsApplicableFn} {config config' : Configuration} {env env' : Environment}
  {a₀ a s t : Search (Option Memory) (Option RuleObject)}

/-- `inst->at(0)->Roots().size()`. -/
def rootsSize (st : Option Memory) : ℕ :=
  ((st.bind fun m => m.forests.head?).map fun f => f.roots.length).getD 0

/-- A search before its first solution. -/
structure Search.Fresh (s : Search (Option Memory) (Option RuleObject)) (m₀ : Memory) : Prop extends s.Starts m₀ where
  solutionBranch : s.solutionBranch = []
  bestSolutionWeight : s.context.bestSolutionWeight = ⊤

/-- **The approximation is taken off the instance**, and leaves its rules as they were recorded: they solve
the instance with as many trees as were counted. -/
theorem seed_of_approximation (hm₀ : m₀.IsInstance width e.fuel Fs X) (he : e.Fits X)
    (hw : ∀ f, e.weightFunction f = f.roots.length) (hb : config.boundedDepthSearch = false)
    (ha₀ : a₀.Fresh m₀)
    (h : Search.Session (ruleSystem e (approximationRules e)) config env a₀ a)
    (hsol : a.solutionBranch ≠ []) :
    ∃ k : ℕ, Search.seedFromApproximation (ruleSystem e (approximationRules e)) config rootsSize a =
        ((a.solutionBranch, k), some m₀) ∧
      Solves width e.fuel m₀ a.solutionBranch k ∧ a.context.bestSolutionWeight = ((k : ℚ) : WithTop ℚ) := by
  have hrules : approximationRules e = defaultRules e ∨ approximationRules e = approximationRules e ∨
    approximationRules e = basicRuleList e := Or.inr (Or.inl rfl)
  have hinc : Incumbent width e.fuel m₀ a₀ := Or.inl ⟨ha₀.solutionBranch, ha₀.bestSolutionWeight⟩
  have hinv := SearchInvariant.of_search hm₀ he hrules ha₀.toStarts h.reachable
  have hans := AnswerInvariant.of_session hm₀ he hw hrules ha₀.toStarts hinc h
  have hstraight := StraightSearch.of_session hm₀ he ha₀.toStarts ha₀.solutionBranch h
  obtain ⟨rs, m, k, hbranch, hrs, hans, hweight, hinst, -, hfinal⟩ :=
    hans.finalize (approximationRules e) hb hinv hsol
  have hplain : Straight rs := by
    intro r hr
    have hclone : r.isBranchingRule = r.clone.isBranchingRule := isBranchingRule_of_rule rfl
    refine hclone.trans (hstraight.solutionBranch r.clone ?_)
    rw [hrs, cloned, List.mem_reverse]
    exact List.mem_map.2 ⟨some r, hr, rfl⟩
  have hforests : m.forests ≠ [] := by
    intro hnil
    have hlen := hbranch.length_forests
    rw [hnil, hm₀.holds.length] at hlen
    exact hm₀.nonempty (List.length_eq_zero_iff.1 hlen.symm)
  obtain ⟨f, hf, hroots⟩ := hans.length_roots hforests
  refine ⟨k, ?_, ⟨rs, m, hbranch, ?_, hrs, hans⟩, hweight⟩
  · have hsize : rootsSize (some m) = k := by
      rw [rootsSize, Option.bind_some, hf, Option.map_some, Option.getD_some, hroots]
    simp only [Search.seedFromApproximation, Search.unapplySolutionBranch, hinst, hfinal, List.reverse_reverse,
      hbranch.unapplyEach (approximationRules e), hbranch.fresh hplain, ← hrs, hsize]
  · rintro rfl
    exact hsol hrs

/-- **A seeded search has an answer in every state**, of at most the size of the seed. -/
theorem agreementForest_of_seed (hm₀ : m₀.IsInstance width e.fuel Fs X) (he : e.Fits X)
    (hw : ∀ f, e.weightFunction f = f.roots.length) (hb : config.boundedDepthSearch = false)
    (hb' : config'.boundedDepthSearch = false) (ha₀ : a₀.Fresh m₀)
    (ha : Search.Session (ruleSystem e (approximationRules e)) config' env' a₀ a)
    (hsol : a.solutionBranch ≠ [])
    (hrules : rules = defaultRules e ∨ rules = approximationRules e ∨ rules = basicRuleList e)
    (ht : t.Starts m₀)
    (h : Search.Session (ruleSystem e rules) config env (Search.seedSolution
      (Search.seedFromApproximation (ruleSystem e (approximationRules e)) config' rootsSize a).1.1
      (Search.seedFromApproximation (ruleSystem e (approximationRules e)) config' rootsSize a).1.2 t) s) :
    (Search.seedFromApproximation (ruleSystem e (approximationRules e)) config' rootsSize a).2 = some m₀ ∧
      ∃ M f F G, (Search.unapplyReductions (ruleSystem e rules) isReduction
          (Search.finalize (ruleSystem e rules) config s)).inst = some M ∧
        M.forests[0]? = some f ∧ Held width e.fuel f G ∧ Fs[0]? = some F ∧ F.Induced G ∧ G.labels = X ∧
        AgreementForest Fs G.blocks ∧ s.context.bestSolutionWeight = ((G.length : ℚ) : WithTop ℚ) ∧
        G.length ≤ (Search.seedFromApproximation (ruleSystem e (approximationRules e)) config' rootsSize a).1.2 := by
  obtain ⟨k, hseed, hsolves, -⟩ := seed_of_approximation hm₀ he hw hb' ha₀ ha hsol
  rw [hseed] at h ⊢
  have hs₀ : Search.Starts (Search.seedSolution a.solutionBranch (k : ℚ) t) m₀ :=
    ⟨ht.inst, ht.appliedRules, ht.applyNext⟩
  have hinc : Incumbent width e.fuel m₀ (Search.seedSolution a.solutionBranch (k : ℚ) t) :=
    Or.inr ⟨k, hsolves, rfl⟩
  have hans := AnswerInvariant.of_session hm₀ he hw hrules hs₀ hinc h
  have hle : s.context.bestSolutionWeight ≤ ((k : ℚ) : WithTop ℚ) := h.bestSolutionWeight_le
  have hsol' : s.solutionBranch ≠ [] := by
    exact hans.2.ne_nil (hle.trans_lt (WithTop.coe_lt_top _))
  obtain ⟨M, f, F, G, hrun, hf, hheld, hF, hind, hlab, hagree, hweight⟩ :=
    hans.agreementForest hm₀ hb (SearchInvariant.of_search hm₀ he hrules hs₀ h.reachable) hsol'
  refine ⟨rfl, M, f, F, G, hrun, hf, hheld, hF, hind, hlab, hagree, hweight, ?_⟩
  rw [hweight, WithTop.coe_le_coe] at hle
  exact_mod_cast hle

end Runs

end Maf
