/-
# What the search answers

The result of a search of `src/Solver/BranchingSolver.cpp` is what `finalize` and `unapplyReductions` leave in
forest 0.  In every state of a session that has a solution this is an agreement forest of the instance
(`answer_of_session`), a search that was seeded by an approximation always has one
(`answer_of_seededSearch`), and an uninterrupted search comes to its end with one (`solve_total`).

All three are about the unbounded mode, `boundedDepthSearch = false`, and about searches without a cluster
root label, in which `weightFunction` counts the trees of forest 0.
-/

import Maf.Solver.FirstSolution

namespace Maf

open Graph RuleObject

section Runs

variable {e : Surroundings} {width : ℕ} {m₀ : Memory} {Fs : List Forest} {X : Finset Label}
  {rules : List IsApplicableFn} {config config' : Configuration} {env env' : Environment}
  {s₀ s a₀ a t : Search (Option Memory) (Option RuleObject)}

/-! ### An instance on which something is cut -/

/-- The instance of `fiveLabels` needs a cut: the triple of `1`, `2` and `3` differs. -/
theorem two_le_kStar_fiveLabels : 2 ≤ kStar fiveLabels := by
  have hover : Instance.Over fiveLabels {1, 2, 3, 4, 5} := by
    refine ⟨by decide, ?_, by decide⟩
    intro F hF
    simp only [fiveLabels, List.mem_cons, List.not_mem_nil, or_false] at hF
    rcases hF with rfl | rfl <;> simp [Forest.Distinct, Tree.Distinct]
  obtain ⟨f, hf, hcard⟩ := exists_isAgreement_card_eq_kStar hover
  by_contra hlt
  have hone : ∀ x ∈ ({1, 2, 3, 4, 5} : Finset Label), ∀ y ∈ ({1, 2, 3, 4, 5} : Finset Label), f x = f y :=
    fun x hx y hy =>
      Finset.card_le_one.1 (by omega) (f x) (Finset.mem_image_of_mem f hx) (f y) (Finset.mem_image_of_mem f hy)
  have htriple := hf.agree (Forest.clusters fiveLabels[0]) (by simp [Instance.clusters, fiveLabels])
    (Forest.clusters fiveLabels[1]) (by simp [Instance.clusters, fiveLabels]) 1 (by decide) 2 (by decide) 3 (by decide)
    (hone 1 (by decide) 2 (by decide)) (hone 2 (by decide) 3 (by decide)) (by decide)
  exact absurd htriple (by decide)

/-- An agreement forest has at least `k*` trees. -/
theorem kStar_le_length {I : Instance} {G : Forest} (h : AgreementForest I G.blocks) : kStar I ≤ G.length :=
  (kStar_le h).trans ((List.toFinset_card_le _).trans (List.length_map ..).le)

/-- The search on `fiveLabels` before its first iteration. -/
def fiveLabelsStart : Search (Option Memory) (Option RuleObject) :=
  { inst := some (Memory.ofForests 1 fiveLabels), context := {} }

/-- It has not found anything. -/
theorem fresh_fiveLabelsStart : fiveLabelsStart.Fresh (Memory.ofForests 1 fiveLabels) := ⟨⟨rfl, rfl, rfl⟩, rfl, rfl⟩

/-- **The search on `fiveLabels`** comes to its end with a solution. -/
theorem exists_exhausted_fiveLabels (hrules : rules = defaultRules fiveLabelsSurroundings ∨
      rules = approximationRules fiveLabelsSurroundings ∨ rules = basicRuleList fiveLabelsSurroundings) :
    ∃ n log s, Search.Session (ruleSystem fiveLabelsSurroundings rules) {} { clock := fun _ => 0 } fiveLabelsStart s ∧
      Search.advanceSearch (ruleSystem fiveLabelsSurroundings rules) {} { clock := fun _ => 0 } n false
        fiveLabelsStart = some (.exhausted, log, s) ∧
      s.solutionBranch ≠ [] :=
  exists_exhausted isInstance_fiveLabels rfl fits_fiveLabels (fun _ => rfl) rfl rfl rfl rfl hrules fresh_fiveLabelsStart
    rfl rfl

/-! ### The answers -/

/-- **The search answers with an agreement forest.**  In every state of a session that has a solution, to its
end or left early, `finalize` and `unapplyReductions` leave an agreement forest of the instance in forest 0,
cut out of it, with as many trees as the weight of the solution.

The search is one in unbounded mode, and without a cluster root label: its weights are numbers of trees. -/
theorem answer_of_session (hm₀ : m₀.IsInstance width e.fuel Fs X) (he : e.Fits X)
    (hw : ∀ f, e.weightFunction f = f.roots.length) (hb : config.boundedDepthSearch = false)
    (hrules : rules = defaultRules e ∨ rules = approximationRules e ∨ rules = basicRuleList e)
    (hs₀ : s₀.Starts m₀)
    (hinc : Incumbent width e.fuel m₀ s₀) (h : Search.Session (ruleSystem e rules) config env s₀ s)
    (hsol : s.solutionBranch ≠ []) :
    ∃ M f F G, (Search.unapplyReductions (ruleSystem e rules) isReduction
        (Search.finalize (ruleSystem e rules) config s)).inst = some M ∧
      M.forests[0]? = some f ∧ Held width e.fuel f G ∧ Fs[0]? = some F ∧ F.Induced G ∧ G.labels = X ∧
      AgreementForest Fs G.blocks ∧ s.context.bestSolutionWeight = ((G.length : ℚ) : WithTop ℚ) := by
  exact (AnswerInvariant.of_session hm₀ he hw hrules hs₀ hinc h).agreementForest hm₀ hb
    (SearchInvariant.of_search hm₀ he hrules hs₀ h.reachable) hsol

/-- The end of a search on `fiveLabels`, where something was cut. -/
theorem answer_of_session_fiveLabels :
    ∃ s, Search.Session (ruleSystem fiveLabelsSurroundings (defaultRules fiveLabelsSurroundings)) {}
        { clock := fun _ => 0 } fiveLabelsStart s ∧ s.solutionBranch ≠ [] ∧
      ∃ M f F G, (Search.unapplyReductions (ruleSystem fiveLabelsSurroundings (defaultRules fiveLabelsSurroundings))
          isReduction (Search.finalize (ruleSystem fiveLabelsSurroundings (defaultRules fiveLabelsSurroundings)) {}
            s)).inst = some M ∧
        M.forests[0]? = some f ∧ Held 1 9 f G ∧ fiveLabels[0]? = some F ∧ F.Induced G ∧
        Forest.labels G = {1, 2, 3, 4, 5} ∧ AgreementForest fiveLabels (Forest.blocks G) ∧
        s.context.bestSolutionWeight = ((List.length G : ℚ) : WithTop ℚ) ∧ 2 ≤ List.length G := by
  obtain ⟨-, -, s, hs, -, hsol⟩ := exists_exhausted_fiveLabels (Or.inl rfl)
  obtain ⟨M, f, F, G, hrun, hf, hheld, hF, hind, hlab, hagree, hweight⟩ := answer_of_session isInstance_fiveLabels
    fits_fiveLabels (fun _ => rfl) rfl (Or.inl rfl) ⟨rfl, rfl, rfl⟩ (Or.inl ⟨rfl, rfl⟩) hs hsol
  exact ⟨s, hs, hsol, M, f, F, G, hrun, hf, hheld, hF, hind, hlab, hagree, hweight,
    two_le_kStar_fiveLabels.trans (kStar_le_length hagree)⟩

/-- **A search that is seeded by an approximation always has an answer.**  Whatever stops it, `finalize` and
`unapplyReductions` leave an agreement forest of the instance in forest 0, with as many trees as the weight
says, and no more than the approximation had.

Both searches are in unbounded mode, and without a cluster root label: their weights are numbers of trees. -/
theorem answer_of_seededSearch (hm₀ : m₀.IsInstance width e.fuel Fs X) (he : e.Fits X)
    (hw : ∀ f, e.weightFunction f = f.roots.length) (hb : config.boundedDepthSearch = false)
    (hb' : config'.boundedDepthSearch = false) (ha₀ : a₀.Fresh m₀)
    (ha : Search.Session (ruleSystem e (approximationRules e)) config' env' a₀ a)
    (hsol : a.solutionBranch ≠ [])
    (hrules : rules = defaultRules e ∨ rules = approximationRules e ∨ rules = basicRuleList e)
    (ht : t.Starts m₀)
    (h : Search.Session (ruleSystem e rules) config env (Search.seedSolution
      (Search.seedFromApproximation (ruleSystem e (approximationRules e)) config' rootsSize a).1.1
      (Search.seedFromApproximation (ruleSystem e (approximationRules e)) config' rootsSize a).1.2 t) s) :
    (Search.seedFromApproximation (ruleSystem e (approximationRules e)) config' rootsSize a).2 = some m₀ ∧
      ∃ M f F G, (Search.unapplyReductions (ruleSystem e rules) isReduction
          (Search.finalize (ruleSystem e rules) config s)).inst = some M ∧
        M.forests[0]? = some f ∧ Held width e.fuel f G ∧ Fs[0]? = some F ∧ F.Induced G ∧ G.labels = X ∧
        AgreementForest Fs G.blocks ∧ s.context.bestSolutionWeight = ((G.length : ℚ) : WithTop ℚ) ∧
        G.length ≤ (Search.seedFromApproximation (ruleSystem e (approximationRules e)) config' rootsSize a).1.2 :=
  agreementForest_of_seed hm₀ he hw hb hb' ha₀ ha hsol hrules ht h

/-- A search on `fiveLabels` from the seed of an approximation on, to the end of a call of `advanceSearch`. -/
theorem answer_of_seededSearch_fiveLabels :
    ∃ a s n result log, Search.Session
        (ruleSystem fiveLabelsSurroundings (approximationRules fiveLabelsSurroundings)) {} { clock := fun _ => 0 }
        fiveLabelsStart a ∧ a.solutionBranch ≠ [] ∧
      Search.advanceSearch (ruleSystem fiveLabelsSurroundings (defaultRules fiveLabelsSurroundings)) {}
        { clock := fun _ => 0 } n false (Search.seedSolution
          (Search.seedFromApproximation (ruleSystem fiveLabelsSurroundings (approximationRules fiveLabelsSurroundings))
            {} rootsSize a).1.1
          (Search.seedFromApproximation (ruleSystem fiveLabelsSurroundings (approximationRules fiveLabelsSurroundings))
            {} rootsSize a).1.2 fiveLabelsStart) = some (result, log, s) ∧
      (Search.seedFromApproximation (ruleSystem fiveLabelsSurroundings (approximationRules fiveLabelsSurroundings)) {}
        rootsSize a).2 = some (Memory.ofForests 1 fiveLabels) ∧
      ∃ M f F G, (Search.unapplyReductions (ruleSystem fiveLabelsSurroundings (defaultRules fiveLabelsSurroundings))
          isReduction (Search.finalize (ruleSystem fiveLabelsSurroundings (defaultRules fiveLabelsSurroundings)) {}
            s)).inst = some M ∧
        M.forests[0]? = some f ∧ Held 1 9 f G ∧ fiveLabels[0]? = some F ∧ F.Induced G ∧
        Forest.labels G = {1, 2, 3, 4, 5} ∧ AgreementForest fiveLabels (Forest.blocks G) ∧
        s.context.bestSolutionWeight = ((List.length G : ℚ) : WithTop ℚ) ∧
        List.length G ≤ (Search.seedFromApproximation (ruleSystem fiveLabelsSurroundings
          (approximationRules fiveLabelsSurroundings)) {} rootsSize a).1.2 ∧ 2 ≤ List.length G := by
  obtain ⟨-, -, a, ha, -, hsol⟩ := exists_exhausted_fiveLabels (Or.inr (Or.inl rfl))
  obtain ⟨k, hseed, -, -⟩ := seed_of_approximation isInstance_fiveLabels fits_fiveLabels (fun _ => rfl) rfl
    fresh_fiveLabelsStart ha hsol
  have hfirst : Search.Session (ruleSystem fiveLabelsSurroundings (defaultRules fiveLabelsSurroundings)) {}
      { clock := fun _ => 0 } (Search.seedSolution a.solutionBranch (k : ℚ) fiveLabelsStart)
      (Search.seedSolution a.solutionBranch (k : ℚ) fiveLabelsStart) := .start
  obtain ⟨n, result, log, b, u, hu, -, hcall⟩ := exists_lastIteration isInstance_fiveLabels fits_fiveLabels
    rfl (Or.inl rfl) ⟨rfl, rfl, rfl⟩ hfirst false
  have hsession := hu.iterate b
  have hstart : Search.seedSolution a.solutionBranch (k : ℚ) fiveLabelsStart = Search.seedSolution
      (Search.seedFromApproximation (ruleSystem fiveLabelsSurroundings (approximationRules fiveLabelsSurroundings)) {}
        rootsSize a).1.1
      (Search.seedFromApproximation (ruleSystem fiveLabelsSurroundings (approximationRules fiveLabelsSurroundings)) {}
        rootsSize a).1.2 fiveLabelsStart := by rw [hseed]
  rw [hstart] at hsession hcall
  obtain ⟨hback, M, f, F, G, hrun, hf, hheld, hF, hind, hlab, hagree, hweight, hle⟩ :=
    answer_of_seededSearch isInstance_fiveLabels fits_fiveLabels (fun _ => rfl) rfl rfl fresh_fiveLabelsStart ha hsol
      (Or.inl rfl) ⟨rfl, rfl, rfl⟩ hsession
  exact ⟨a, _, n, result, log, ha, hsol, hcall, hback, M, f, F, G, hrun, hf, hheld, hF, hind, hlab, hagree, hweight,
    hle, two_le_kStar_fiveLabels.trans (kStar_le_length hagree)⟩

/-- **`solve` is total.**  On every instance with no edge protected, an uninterrupted search in unbounded mode
ends with its search space exhausted and with a solution, and `finalize` and `unapplyReductions` leave an
agreement forest of the instance in forest 0, with as many trees as the weight says.  The search is one without a
cluster root label: its weights are numbers of trees. -/
theorem solve_total (hm₀ : m₀.IsInstance width e.fuel Fs X) (hprot : m₀.protectedEdges = ∅)
    (he : e.Fits X)
    (hw : ∀ f, e.weightFunction f = f.roots.length) (hbd : e.boundedDepthSearch = false)
    (hb : config.boundedDepthSearch = false) (hcert : config.certifiedEarlyExit = false)
    (hflag : env.timeoutFlag = none)
    (hrules : rules = defaultRules e ∨ rules = approximationRules e ∨ rules = basicRuleList e)
    (hs₀ : s₀.Fresh m₀)
    (hpause : s₀.pauseDeadline = none) (hpassed : s₀.pauseDeadlinePassed = false) :
    ∃ n log t M f F G, Search.advanceSearch (ruleSystem e rules) config env n false s₀ = some (.exhausted, log, t) ∧
      t.solutionBranch ≠ [] ∧ (Search.unapplyReductions (ruleSystem e rules) isReduction
        (Search.finalize (ruleSystem e rules) config t)).inst = some M ∧
      M.forests[0]? = some f ∧ Held width e.fuel f G ∧ Fs[0]? = some F ∧ F.Induced G ∧ G.labels = X ∧
      AgreementForest Fs G.blocks ∧ t.context.bestSolutionWeight = ((G.length : ℚ) : WithTop ℚ) := by
  have hinc : Incumbent width e.fuel m₀ s₀ := Or.inl ⟨hs₀.solutionBranch, hs₀.bestSolutionWeight⟩
  obtain ⟨n, log, t, ht, hcall, hsol⟩ :=
    exists_exhausted hm₀ hprot he hw hbd hb hcert hflag hrules hs₀ hpause hpassed
  obtain ⟨M, f, F, G, hrest⟩ :=
    (AnswerInvariant.of_session hm₀ he hw hrules hs₀.toStarts hinc ht).agreementForest hm₀ hb
      (SearchInvariant.of_search hm₀ he hrules hs₀.toStarts ht.reachable) hsol
  exact ⟨n, log, t, M, f, F, G, hcall, hsol, hrest⟩

/-- The search on two trees with five labels. -/
theorem solve_total_fiveLabels :
    ∃ n log t M f F G, Search.advanceSearch (ruleSystem fiveLabelsSurroundings (defaultRules fiveLabelsSurroundings)) {}
        { clock := fun _ => 0 } n false { inst := some (Memory.ofForests 1 fiveLabels), context := {} } =
          some (.exhausted, log, t) ∧
      t.solutionBranch ≠ [] ∧
      (Search.unapplyReductions (ruleSystem fiveLabelsSurroundings (defaultRules fiveLabelsSurroundings)) isReduction
        (Search.finalize (ruleSystem fiveLabelsSurroundings (defaultRules fiveLabelsSurroundings)) {} t)).inst =
          some M ∧
      M.forests[0]? = some f ∧ Held 1 9 f G ∧ fiveLabels[0]? = some F ∧ F.Induced G ∧
      Forest.labels G = {1, 2, 3, 4, 5} ∧ AgreementForest fiveLabels (Forest.blocks G) ∧
      t.context.bestSolutionWeight = ((List.length G : ℚ) : WithTop ℚ) :=
  solve_total isInstance_fiveLabels rfl fits_fiveLabels (fun _ => rfl) rfl rfl rfl rfl (Or.inl rfl)
    ⟨⟨rfl, rfl, rfl⟩, rfl, rfl⟩ rfl rfl

end Runs

end Maf
