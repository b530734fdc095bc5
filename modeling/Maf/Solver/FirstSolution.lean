/-
# The first way down finds a solution

An `apply` of `src/Solver/Rule/*.cpp` is left early only at a protected edge, and edges are protected in the
last branch of a branching rule only (`body_open`).  A search that has no solution yet has never been rolled
back, so no edge is protected, and no weight is reached: it goes down until forest 0 consists of single
vertices, and records them (`Down`).

Together with termination this makes `BranchingSolver::solve` total: on every instance it ends with the
search space exhausted, and with a solution (`exists_exhausted`).
-/

import Maf.Solver.SeedFromApproximation
import Maf.Solver.Termination

namespace Maf

open EarlyExit Prog
open Graph Body

namespace Body

section Open

variable {α : Type*} {fuel i : ℕ} {f g : Body}

/-- **The part is not left early**, and protects nothing, while no edge is protected. -/
def Open (f : Body) : Prop :=
  ∀ y b z, f y = some (b, z) → y.2.protectedEdges = ∅ → b = false ∧ z.2.protectedEdges = ∅

/-- A part that does nothing. -/
theorem open_skip : Open skip := by
  intro y b z h hy
  obtain ⟨rfl, rfl⟩ := Prod.mk.inj (Option.some.inj h)
  exact ⟨rfl, hy⟩

/-- Two parts after each other. -/
theorem Open.seq (hf : Open f) (hg : Open g) : Open (f.seq g) := by
  intro y b z h hy
  rw [Prog.seq] at h
  split at h
  · cases h
  · next y' hrun => exact absurd (hf _ _ _ hrun hy).1.symm Bool.false_ne_true
  · next y' hrun => exact hg _ _ _ h (hf _ _ _ hrun hy).2

/-- A loop over a list. -/
theorem Open.forEach {f : α → Body} (h : ∀ x, Open (f x)) (l : List α) : Open (Prog.forEach f l) := by
  induction l with
  | nil => exact open_skip
  | cons x l ih => exact (h x).seq ih

/-- A loop over the forests. -/
theorem Open.forEachForest {f : ℕ → Body} (h : ∀ i, Open (f i)) : Open (forEachForest f) :=
  fun y => Open.forEach h _ y

/-- A part that needs a terminal. -/
theorem Open.withTerminal {x : Label} {f : Ptr → Body} (h : ∀ p, Open (f p)) :
    Open (withTerminal x i f) := by
  rintro ⟨r, m⟩ b z hrun hy
  obtain ⟨s, -, hrun⟩ := Option.bind_eq_some_iff.1 hrun
  obtain ⟨p, -, hrun⟩ := Option.bind_eq_some_iff.1 hrun
  exact h p _ _ _ hrun hy

/-- A part that needs a child. -/
theorem Open.ifChild {p : Ptr} (h : Open f) : Open (ifChild i p f) := by
  rintro ⟨r, m⟩ b z hrun hy
  obtain ⟨s, -, hrun⟩ := Option.bind_eq_some_iff.1 hrun
  split_ifs at hrun
  · exact h _ _ _ hrun hy
  · exact open_skip _ _ _ hrun hy

/-- A cut is made. -/
theorem open_deleteEdge (p : Ptr) : Open (deleteEdge fuel i p) := by
  rintro ⟨r, m⟩ b z hrun hy
  obtain ⟨s, -, hrun⟩ := Option.bind_eq_some_iff.1 hrun
  obtain ⟨a, -, hrun⟩ := Option.bind_eq_some_iff.1 hrun
  obtain ⟨rfl, rfl⟩ := Prod.mk.inj (Option.some.inj hrun)
  exact ⟨rfl, hy⟩

/-- A node is cut when it is not protected. -/
theorem open_cutNode (p : Ptr) : Open (cutNode fuel i p) := by
  rintro ⟨r, m⟩ b z hrun hy
  have hno : (i, p) ∉ m.protectedEdges := by
    rw [show m.protectedEdges = ∅ from hy]
    exact Finset.notMem_empty _
  simp only [cutNode, if_neg hno] at hrun
  exact open_deleteEdge p _ _ _ hrun hy

/-- A label is cut when it is not protected. -/
theorem open_cutLabel (x : Label) : Open (cutLabel fuel x i) :=
  Open.withTerminal fun p => (open_cutNode p).ifChild

/-- A collapse is made. -/
theorem open_collapseParent (x : Label) : Open (collapseParent x i) := by
  refine Open.withTerminal fun p => ?_
  rintro ⟨r, m⟩ b z hrun hy
  obtain ⟨s, -, hrun⟩ := Option.bind_eq_some_iff.1 hrun
  obtain ⟨q, -, hrun⟩ := Option.bind_eq_some_iff.1 hrun
  obtain ⟨a, -, hrun⟩ := Option.bind_eq_some_iff.1 hrun
  obtain ⟨rfl, rfl⟩ := Prod.mk.inj (Option.some.inj hrun)
  exact ⟨rfl, hy⟩

/-- The forced cut of a cherry is made. -/
theorem open_forcedCherryCut (a c : Label) : Open (ForcedCherryCutRule.apply fuel a c) := by
  refine Open.withTerminal fun p => Open.withTerminal fun q => ?_
  rintro ⟨r, m⟩ b z hrun hy
  obtain ⟨s, -, hrun⟩ := Option.bind_eq_some_iff.1 hrun
  have hno : ¬((1, p) ∈ m.protectedEdges ∨ (∃ b ∈ (s.nodes p).sibling, (1, b) ∈ m.protectedEdges) ∨
      (1, q) ∈ m.protectedEdges) := by
    rw [show m.protectedEdges = ∅ from hy]
    simp
  dsimp only at hrun
  rw [if_neg hno] at hrun
  obtain ⟨o, -, hrun⟩ := Option.bind_eq_some_iff.1 hrun
  exact Open.forEach (fun node => (open_deleteEdge node).ifChild) _ _ _ _ hrun hy

end Open

end Body

namespace RuleObject

variable {fuel : ℕ}

/-- **No rule is left early in its first branch**, while no edge is protected. -/
theorem body_open {r : RuleObject} (hbranch : r.isBranchingRule = true → r.branch = 1) :
    Open (r.body fuel).2 := by
  have label : ∀ x : Label, Open (forEachForest (cutLabel fuel x)) :=
    fun x => Open.forEachForest fun i => open_cutLabel x
  have labels : ∀ L : List Label, Open (forEachForest fun i => forEach (cutLabel fuel · i) L) := fun L =>
    Open.forEachForest fun i => Open.forEach open_cutLabel L
  unfold body
  cases hr : r.rule with
  | cutBranch => exact open_skip
  | checkSingleVertexTrees => exact open_skip
  | singleVertexTreePropagation ls => exact labels ls
  | equalPairReduction a c => exact Open.forEachForest fun i => open_collapseParent a
  | bRule b1 b2 => exact labels _
  | reverseB x => exact label x
  | twoB x y => exact labels _
  | acBranching a c =>
      have h₁ := hbranch (by rw [isBranchingRule, maxBranch, hr]; rfl)
      simp only [h₁, ACBranchingRule.apply]
      exact label a
  | abcBranching a c bs =>
      have h₁ := hbranch (by rw [isBranchingRule, maxBranch, hr]; rfl)
      simp only [h₁, ABCBranchingRule.apply]
      exact Open.forEach (fun e => Open.forEach open_cutNode e.2) bs
  | forcedCherryCut a c => exact open_forcedCherryCut a c
  | greedyCherryCut a c => exact label a
  | debugAssertFalse => exact open_skip

/-- Only `CutBranchRule` cuts the branch off by itself. -/
theorem eq_cutBranch_of_code {r : RuleObject} (h : (r.body fuel).1 = .cutBranch) :
    r.rule = .cutBranch := by
  unfold body at h
  cases hr : r.rule with
  | cutBranch => rfl
  | abcBranching a c bs =>
      rw [hr] at h
      dsimp only at h
      split_ifs at h
  | _ =>
      rw [hr] at h
      cases h

end RuleObject

namespace SiblingRuleFactory

variable {order : List Label} {Fs : List Forest} {rule : Rule}

/-- The factories never cut a branch off. -/
theorem allRules_ne_cutBranch (h : allRules order Fs = some (some rule)) : rule ≠ .cutBranch := by
  rintro rfl
  cases Fs with
  | nil => cases h
  | cons f0 fs =>
      unfold allRules at h
      dsimp only at h
      split at h
      · cases h
      · split at h
        · cases h
        · cases h
        · rw [Option.some.injEq, Option.some.injEq] at h
          unfold decideRule at h
          split_ifs at h

/-- The basic rules do not cut branches. -/
theorem basicRules_ne_cutBranch (h : basicRules order Fs = some (some rule)) : rule ≠ .cutBranch := by
  rintro rfl
  cases Fs with
  | nil => cases h
  | cons f0 fs =>
      unfold basicRules at h
      dsimp only at h
      split at h
      · cases h
      · split at h
        · cases h
        · cases h
        · rw [Option.some.injEq, Option.some.injEq] at h
          split_ifs at h

/-- The approximation does not cut branches. -/
theorem approximationRule_ne_cutBranch (h : approximationRule order Fs = some (some rule)) :
    rule ≠ .cutBranch := by
  rintro rfl
  cases Fs with
  | nil => cases h
  | cons f0 fs =>
      unfold approximationRule at h
      dsimp only at h
      split at h
      · cases h
      · obtain ⟨siblings, -, h⟩ := Option.bind_eq_some_iff.1 h
        rw [Option.some.injEq, Option.some.injEq] at h
        split_ifs at h

end SiblingRuleFactory

section Down

variable {e : Surroundings} {width t : ℕ} {m₀ : Memory} {rules : List IsApplicableFn}
  {config : Configuration}
  {env : Environment} {s : Search (Option Memory) (Option RuleObject)}

/-- **Before the first solution** no weight cuts a branch off. -/
theorem ne_cutBranch_of_firstApplicable {c : Context} {m : Memory} {rule : Rule}
    (hb : e.boundedDepthSearch = false)
    (hc : c.bestSolutionWeight = ⊤)
    (hrules : rules = defaultRules e ∨ rules = approximationRules e ∨ rules = basicRuleList e)
    (h : firstApplicable c m rules = some rule) : rule ≠ .cutBranch := by
  have hcut : CutBranchRule.isApplicable e c m = some (some rule) → rule ≠ .cutBranch := by
    intro hsome
    have hany : (m.forests.any fun f =>
        decide (c.bestSolutionWeight ≤ ((e.weightFunction f : ℚ) : WithTop ℚ))) = false := by
      rw [List.any_eq_false]
      intro f _
      rw [decide_eq_true_iff, hc]
      exact not_le.2 (WithTop.coe_lt_top _)
    rw [CutBranchRule.isApplicable, hb, if_neg Bool.false_ne_true, hany, if_neg Bool.false_ne_true] at hsome
    cases hsome
  have hsingle : CheckSingleVertexTreesRule.isApplicable e c m = some (some rule) → rule ≠ .cutBranch := by
    intro hsome
    obtain ⟨f, -, hsome⟩ := Option.bind_eq_some_iff.1 hsome
    dsimp only at hsome
    split_ifs at hsome
    · obtain rfl := Option.some.inj (Option.some.inj hsome)
      rintro ⟨⟩
    · cases hsome
  have hpropagate : SingleVertexTreePropagationRule.isApplicable e c m = some (some rule) → rule ≠ .cutBranch := by
    intro hsome
    obtain ⟨f, -, hsome⟩ := Option.bind_eq_some_iff.1 hsome
    dsimp only at hsome
    split_ifs at hsome
    · cases hsome
    · obtain rfl := Option.some.inj (Option.some.inj hsome)
      rintro ⟨⟩
  have hassert : DebugAssertFalseRule.isApplicable c m = some (some rule) → rule ≠ .cutBranch := by
    intro hsome
    obtain rfl := Option.some.inj (Option.some.inj hsome)
    rintro ⟨⟩
  obtain ⟨f, hf, hsome⟩ := mem_of_firstApplicable h
  rcases hrules with rfl | rfl | rfl
  · simp only [defaultRules, List.mem_cons, List.not_mem_nil, or_false] at hf
    rcases hf with rfl | rfl | rfl | rfl | rfl
    · exact hcut hsome
    · exact hsingle hsome
    · exact hpropagate hsome
    · exact SiblingRuleFactory.allRules_ne_cutBranch hsome
    · exact hassert hsome
  · simp only [approximationRules, List.mem_cons, List.not_mem_nil, or_false] at hf
    rcases hf with rfl | rfl | rfl | rfl
    · exact hsingle hsome
    · exact hpropagate hsome
    · exact SiblingRuleFactory.approximationRule_ne_cutBranch hsome
    · exact hassert hsome
  · simp only [basicRuleList, List.mem_cons, List.not_mem_nil, or_false] at hf
    rcases hf with rfl | rfl | rfl | rfl | rfl
    · exact hcut hsome
    · exact hsingle hsome
    · exact hpropagate hsome
    · exact SiblingRuleFactory.basicRules_ne_cutBranch hsome
    · exact hassert hsome

/-- **On the way down**: as long as there is no solution, no edge is protected, and only a rule that does not
branch waits. -/
def Down (s : Search (Option Memory) (Option RuleObject)) : Prop :=
  s.solutionBranch = [] → ∃ m, s.inst = some m ∧ m.protectedEdges = ∅ ∧
    ∀ r, some r ∈ s.applyNext → r.branch = 0 ∧ r.rule ≠ .cutBranch

/-- **A rule on the way down** is not left early, and protects nothing. -/
theorem RuleObject.Applied.goesDown {X : Finset Label} {m m' : Memory} {r r' : RuleObject}
    {code : RuleReturnCode} {fuel : ℕ}
    (hready : r.Ready width fuel t X m) (h : Applied width fuel t X r m code r' m')
    (hzero : r.branch = 0)
    (hrule : r.rule ≠ .cutBranch) (hprot : m.protectedEdges = ∅) :
    code ≠ .cutBranch ∧ m'.protectedEdges = ∅ := by
  obtain ⟨b, hrun, hc⟩ := h.exists_run hready
  have hopen : Open (r.begun.body fuel).2 := by
    refine body_open fun hbr => ?_
    have hbr' : r.isBranchingRule = true := hbr
    change (if r.isBranchingRule then r.branch + 1 else r.branch) = 1
    rw [hbr', if_pos rfl, hzero]
  obtain ⟨rfl, hprot'⟩ := hopen _ _ _ hrun hprot
  rw [if_neg Bool.false_ne_true] at hc
  exact ⟨fun hcode => hrule (eq_cutBranch_of_code (r := r.begun) (hc.symm.trans hcode)), hprot'⟩

/-- A solution has a weight. -/
theorem Incumbent.lt_top {fuel : ℕ} (h : Incumbent width fuel m₀ s) (hsol : s.solutionBranch ≠ []) :
    s.context.bestSolutionWeight < ⊤ := by
  rcases h with ⟨hnil, -⟩ | ⟨k, -, hweight⟩
  · exact absurd hnil hsol
  · rw [hweight]
    exact WithTop.coe_lt_top _

/-- Without a solution the weight is infinite. -/
theorem Incumbent.eq_top {fuel : ℕ} (h : Incumbent width fuel m₀ s) (hsol : s.solutionBranch = []) :
    s.context.bestSolutionWeight = ⊤ := by
  by_contra htop
  exact h.ne_nil (lt_top_iff_ne_top.2 htop) hsol

/-- **One iteration goes down or finds a solution**, and the search space is exhausted with one only. -/
theorem Down.advanceIteration (hiter : ∀ m l, (e.iterated m l).Perm l) (ht : t ≠ 0)
    (hw : ∀ f, e.weightFunction f = f.roots.length) (hbd : e.boundedDepthSearch = false)
    (hb : config.boundedDepthSearch = false)
    (hrules : rules = defaultRules e ∨ rules = approximationRules e ∨ rules = basicRuleList e)
    (madeProgressThisCall : Bool) (h : SearchInvariant e width t m₀ s)
    (ha : AnswerInvariant e width m₀ s) (hd : Down s) :
    Down (Search.advanceIteration (ruleSystem e rules) config env madeProgressThisCall s).2 ∧
      ((Search.advanceIteration (ruleSystem e rules) config env madeProgressThisCall s).1 = some .exhausted →
        (Search.advanceIteration (ruleSystem e rules) config env madeProgressThisCall s).2.solutionBranch ≠ []) := by
  have ha₁ : AnswerInvariant e width m₀
      (Search.advanceIteration (ruleSystem e rules) config env madeProgressThisCall s).2 :=
    ha.advanceIteration hiter ht hw hrules madeProgressThisCall h
  have hweight := Search.bestSolutionWeight_advanceIteration (ruleSystem e rules) config env madeProgressThisCall s
  obtain ⟨hbranch₀, hinc⟩ := ha
  obtain ⟨-, hinc₁⟩ := ha₁
  by_cases hsol : s.solutionBranch = []
  swap
  · -- the solution stays
    have hne := hinc₁.ne_nil (hweight.trans_lt (hinc.lt_top hsol))
    exact ⟨fun hnil => absurd hnil hne, fun _ => hne⟩
  have hkept : ∀ {u : Search (Option Memory) (Option RuleObject)}, Search.Kept s u → Down u := fun hu _ => by
    obtain ⟨m, hinst, hprot, hnext⟩ := hd hsol
    exact ⟨m, hu.inst.trans hinst, hprot, hu.applyNext ▸ hnext⟩
  have hpause := Search.kept_pauseCheck env madeProgressThisCall s
  rcases Search.advanceIteration_cases (ruleSystem e rules) config env madeProgressThisCall s with
    ⟨-, heq⟩ | ⟨-, heq⟩ | ⟨-, heq⟩ | ⟨-, -, -, code, rule, u, -, happly, heq⟩
  · rw [heq]
    exact ⟨hd, fun h => RunResult.noConfusion (Option.some.inj h)⟩
  · rw [heq]
    exact ⟨hkept (Search.kept_timeoutReached env s), fun h => RunResult.noConfusion (Option.some.inj h)⟩
  · rw [heq]
    exact ⟨hkept hpause, fun h => RunResult.noConfusion (Option.some.inj h)⟩
  · rw [heq] at hinc₁ ⊢
    have h' := h.kept hpause
    have hbranch' := hbranch₀.kept hpause
    obtain ⟨m, hinst, hprot, hnext⟩ := hkept hpause (hpause.solutionBranch.trans hsol)
    have htop :
        (Search.pauseCheck env madeProgressThisCall (Search.timeoutReached env s).2).2.context.bestSolutionWeight = ⊤ :=
      (congrArg _ hpause.context).trans (hinc.eq_top hsol)
    set v := (Search.pauseCheck env madeProgressThisCall (Search.timeoutReached env s).2).2
    obtain ⟨X, m₁, r, code', r', m', hinst', hready, -, happ, hqueue, hstep⟩ :=
      hbranch'.exists_applied hiter ht hrules h'
    obtain rfl := Option.some.inj (hinst'.symm.trans hinst)
    obtain ⟨rfl, hr, hu⟩ := Prod.mk.inj (happly.symm.trans hstep) |>.imp id Prod.mk.inj
    subst hr
    have hfirst : r.branch = 0 ∧ r.rule ≠ .cutBranch := by
      rcases hqueue with ⟨-, rule, rfl, hrule⟩ | hone
      · exact ⟨rfl, ne_cutBranch_of_firstApplicable hbd htop hrules hrule⟩
      · exact hnext r (by rw [hone]; exact List.mem_cons_self ..)
    obtain ⟨hcut, hprot'⟩ := happ.goesDown hready hfirst.1 hfirst.2 hprot
    cases code with
    | immediateReturn => exact absurd rfl happ.goesOn
    | cutBranch => exact absurd rfl hcut
    | «continue» =>
        rw [hu]
        exact ⟨fun _ => ⟨m', rfl, hprot', fun _ hq => absurd hq List.not_mem_nil⟩,
          fun h => absurd h.symm (Option.some_ne_none _)⟩
    | continueWithRuleSuggestion =>
        obtain ⟨-, a, c, hq⟩ := happ.suggests hready
        rw [hu]
        refine ⟨fun _ => ⟨m', rfl, hprot', fun q hmem => ?_⟩, fun h => absurd h.symm (Option.some_ne_none _)⟩
        change some q ∈ [] ++ ((some r').map RuleObject.nextRuleSuggestion |>.getD []).map some at hmem
        rw [Option.map_some, Option.getD_some, hq, List.nil_append, List.map_cons, List.map_nil,
          List.mem_singleton] at hmem
        obtain rfl := Option.some.inj hmem
        exact ⟨rfl, fun h => Rule.noConfusion h⟩
    | endBranchWithSolutionCandidate =>
        -- the first candidate is recorded
        have hlt : (Search.handleReturnCode (ruleSystem e rules) config env .endBranchWithSolutionCandidate
            (some r') u).2.context.bestSolutionWeight < ⊤ := by
          unfold Search.handleReturnCode
          dsimp only
          rw [hb, if_neg Bool.false_ne_true, Search.bestSolutionWeight_rollBack]
          unfold Search.checkSolutionCandidate
          dsimp only
          split_ifs with hless
          · exact WithTop.coe_lt_top _
          · exact (not_lt.1 hless).trans_lt (WithTop.coe_lt_top _)
        have hne := hinc₁.ne_nil hlt
        exact ⟨fun hnil => absurd hnil hne, fun _ => hne⟩

/-- **Every state of a session is on the first way down, or has a solution.** -/
theorem Down.of_session {Fs : List Forest} {X : Finset Label} (hm₀ : m₀.IsInstance width e.fuel Fs X)
    (hprot : m₀.protectedEdges = ∅) (he : e.Fits X) (hw : ∀ f, e.weightFunction f = f.roots.length)
    (hbd : e.boundedDepthSearch = false) (hb : config.boundedDepthSearch = false)
    (hrules : rules = defaultRules e ∨ rules = approximationRules e ∨ rules = basicRuleList e)
    {s₀ : Search (Option Memory) (Option RuleObject)} (hs₀ : s₀.Fresh m₀)
    (h : Search.Session (ruleSystem e rules) config env s₀ s) : Down s := by
  have ht : Fs.length ≠ 0 := fun h => hm₀.nonempty (List.length_eq_zero_iff.1 h)
  have hinc : Incumbent width e.fuel m₀ s₀ := Or.inl ⟨hs₀.solutionBranch, hs₀.bestSolutionWeight⟩
  induction h with
  | start =>
      refine fun _ => ⟨m₀, hs₀.inst, hprot, fun q hq => ?_⟩
      rw [hs₀.applyNext] at hq
      exact absurd hq List.not_mem_nil
  | iterate b hsession ih =>
      exact (ih.advanceIteration he.iterated ht hw hbd hb hrules b
        (SearchInvariant.of_search hm₀ he hrules hs₀.toStarts hsession.reachable)
        (AnswerInvariant.of_session hm₀ he hw hrules hs₀.toStarts hinc hsession)).1
  | resume _ hinst _ hnext hsol _ ih =>
      intro hnil
      obtain ⟨m, hm, hprot', hq⟩ := ih (hsol.symm.trans hnil)
      exact ⟨m, hinst.trans hm, hprot', hnext ▸ hq⟩

end Down

namespace Search

variable {σ ρ : Type*} (R : RuleSystem σ ρ) {config : Configuration} {env : Environment}

/-- Without a deadline nothing pauses. -/
theorem pauseCheck_of_none {s : Search σ ρ} (h : s.pauseDeadline = none)
    (hp : s.pauseDeadlinePassed = false)
    (madeProgressThisCall : Bool) : pauseCheck env madeProgressThisCall s = (false, s) := by
  unfold pauseCheck pauseReached
  cases madeProgressThisCall
  · rfl
  · rw [if_pos rfl, hp, if_neg Bool.false_ne_true, h]

/-- **An uninterrupted search** ends only with its search space exhausted. -/
theorem exhausted_of_advanceSearch (hb : config.boundedDepthSearch = false)
    (hcert : config.certifiedEarlyExit = false)
    (hflag : env.timeoutFlag = none) {n : ℕ} {b : Bool} {s t : Search σ ρ} {result : RunResult}
    {log : List (RuleReturnCode × ρ)} (hpause : s.pauseDeadline = none)
    (hpassed : s.pauseDeadlinePassed = false)
    (h : advanceSearch R config env n b s = some (result, log, t)) : result = .exhausted := by
  induction n generalizing b s log with
  | zero => cases h
  | succ n ih =>
      have htime : timeoutReached env s = (false, s) := by
        unfold timeoutReached
        rw [hflag]
      have hcheck : pauseCheck env b s = (false, s) := pauseCheck_of_none hpause hpassed b
      rcases advanceIteration_cases R config env b s with
        ⟨hc, -⟩ | ⟨hc, -⟩ | ⟨hc, -⟩ | ⟨-, -, -, code, rule, u, hframe, -, heq⟩
      · rw [certified, hcert, Bool.false_and, Bool.false_and] at hc
        cases hc
      · rw [htime] at hc
        cases hc
      · rw [htime, hcheck] at hc
        cases hc
      · rw [htime, hcheck] at hframe
        have hall := hframe.trans (frame_handleReturnCode R config env code rule u)
        rw [advanceSearch, heq] at h
        rcases handleReturnCode_result R config env hb code rule u with hres | hres
        · rw [hres] at h
          dsimp only at h
          cases hrest : advanceSearch R config env n true (handleReturnCode R config env code rule u).2 with
          | none =>
              rw [hrest] at h
              cases h
          | some p =>
              obtain ⟨result', rest, t'⟩ := p
              rw [hrest] at h
              obtain ⟨rfl, hlog⟩ := Prod.mk.inj (Option.some.inj h)
              obtain ⟨-, rfl⟩ := Prod.mk.inj hlog
              exact ih (hall.pauseDeadline.trans hpause) (hall.pauseDeadlinePassed.trans hpassed) hrest
        · rw [hres] at h
          exact (Prod.mk.inj (Option.some.inj h)).1.symm

end Search

section Runs

variable {e : Surroundings} {width : ℕ} {m₀ : Memory} {Fs : List Forest} {X : Finset Label}
  {rules : List IsApplicableFn} {config : Configuration} {env : Environment}
  {s₀ : Search (Option Memory) (Option RuleObject)}

/-- **An uninterrupted search comes to its end with a solution.** -/
theorem exists_exhausted (hm₀ : m₀.IsInstance width e.fuel Fs X) (hprot : m₀.protectedEdges = ∅) (he : e.Fits X)
    (hw : ∀ f, e.weightFunction f = f.roots.length) (hbd : e.boundedDepthSearch = false)
    (hb : config.boundedDepthSearch = false) (hcert : config.certifiedEarlyExit = false)
    (hflag : env.timeoutFlag = none)
    (hrules : rules = defaultRules e ∨ rules = approximationRules e ∨ rules = basicRuleList e) (hs₀ : s₀.Fresh m₀)
    (hpause : s₀.pauseDeadline = none) (hpassed : s₀.pauseDeadlinePassed = false) :
    ∃ n log t, Search.Session (ruleSystem e rules) config env s₀ t ∧
      Search.advanceSearch (ruleSystem e rules) config env n false s₀ = some (.exhausted, log, t) ∧
      t.solutionBranch ≠ [] := by
  have ht : Fs.length ≠ 0 := fun h => hm₀.nonempty (List.length_eq_zero_iff.1 h)
  have hinc : Incumbent width e.fuel m₀ s₀ := Or.inl ⟨hs₀.solutionBranch, hs₀.bestSolutionWeight⟩
  have hstart : Search.Session (ruleSystem e rules) config env s₀ s₀ := .start
  obtain ⟨n, result, log, b, u, hu, hlast, hcall⟩ :=
    exists_lastIteration hm₀ he hb hrules hs₀.toStarts hstart false
  obtain rfl := Search.exhausted_of_advanceSearch _ hb hcert hflag hpause hpassed hcall
  have hinv := SearchInvariant.of_search hm₀ he hrules hs₀.toStarts hu.reachable
  have hans := AnswerInvariant.of_session hm₀ he hw hrules hs₀.toStarts hinc hu
  have hdown := Down.of_session hm₀ hprot he hw hbd hb hrules hs₀ hu
  exact ⟨n, log, _, .iterate b hu, hcall, (hdown.advanceIteration he.iterated ht hw hbd hb hrules b hinv hans).2 hlast⟩

end Runs

end Maf
