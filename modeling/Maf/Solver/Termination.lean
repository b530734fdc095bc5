/-
# The search ends

`advanceSearch` of `src/Solver/BranchingSolver.cpp` loops until a rule or the caller stops it.  It always
returns (`advanceSearch_returns`): the branches that are left on the stack, and what waits to be applied,
have a cost (`Potential`) that each rule application lowers.  A rule after which the search goes on takes
nodes out of the forests; only the first branch of `ABCBranchingRule` may not, so the pair it queues counts
for one step of its own.
-/

import Maf.Rule.Reduces
import Maf.Solver.UnapplyReductions

namespace Maf

open Graph RuleObject

/-- The cost of a search that has `n` steps to go down: at most three branches at each step, and each is
entered by one application. -/
def cost : ℕ → ℕ
  | 0 => 1
  | n + 1 => 3 * (1 + cost n)

/-- One more step costs more. -/
theorem cost_lt_succ (n : ℕ) : cost n < cost (n + 1) := by
  rw [cost]
  omega

/-- More steps cost more. -/
theorem cost_mono {m n : ℕ} (h : m ≤ n) : cost m ≤ cost n :=
  monotone_nat_of_le_succ (fun n => (cost_lt_succ n).le) h

/-- Every search has a cost. -/
theorem cost_pos (n : ℕ) : 0 < cost n := by
  have := cost_mono n.zero_le
  rw [cost] at this
  omega

/-- The nodes of the forests in memory. -/
def Memory.nodes (fuel : ℕ) (m : Memory) : ℕ := Instance.nodes (m.read fuel)

/-- The branches of a rule that are left. -/
def RuleObject.pending (r : RuleObject) : ℕ := r.maxBranch - r.branch

section Nodes

variable {width fuel t : ℕ} {X : Finset Label} {m m' : Memory} {r r' : RuleObject}
  {code : RuleReturnCode}

/-- **A rule after which the search goes on** takes nodes away. -/
theorem RuleObject.Applied.nodes_lt (ht : t ≠ 0) (hready : r.Ready width fuel t X m)
    (hwait : Waiting width fuel m r)
    (h : Applied width fuel t X r m code r' m') (hcode : code = .continue) :
    m'.nodes fuel < m.nodes fuel := by
  obtain ⟨Fs, hm, hX, X', Gs, hm', -, htrim, -⟩ := h.bringsBack hready
  obtain ⟨Fs', hFs', hlen, -, hfit⟩ := hready.fits
  obtain rfl := hFs'.read.symm.trans hm.read
  have hne : Fs' ≠ [] := by
    rintro rfl
    exact ht hlen.symm
  obtain ⟨b, hrun, hc⟩ := h.exists_run hready
  cases b with
  | true =>
      rw [if_pos rfl, hcode] at hc
      cases hc
  | false =>
      rw [if_neg Bool.false_ne_true, hcode] at hc
      rw [Memory.nodes, Memory.nodes, hm.read, hm'.read]
      exact body_nodes_lt (r := r.begun) rfl hready.branch hm hne hX hfit (hwait.warranted _ hm) hrun hc.symm hm' htrim

/-- Only the first branch of the ABC rule suggests a rule, the one that collapses its pair. -/
theorem RuleObject.Applied.suggests (hready : r.Ready width fuel t X m)
    (h : Applied width fuel t X r m .continueWithRuleSuggestion r' m') : r.isBranchingRule = true ∧
      ∃ a c, r'.nextRuleSuggestion = [{ rule := .equalPairReduction a c }] := by
  obtain ⟨b, -, hc⟩ := h.exists_run hready
  cases b with
  | true => cases hc
  | false =>
      obtain ⟨-, a, c, bs, hr⟩ := eq_abc_of_code hc.symm
      refine ⟨?_, a, c, ?_⟩
      · rw [isBranchingRule, maxBranch, show r.rule = _ from hr]
        rfl
      · rw [nextRuleSuggestion, h.rule, show r.rule = _ from hr]

/-- No rule adds nodes. -/
theorem RuleObject.Applied.nodes_le (hready : r.Ready width fuel t X m)
    (h : Applied width fuel t X r m code r' m') :
    m'.nodes fuel ≤ m.nodes fuel := by
  obtain ⟨Fs, hm, hX, X', Gs, hm', -, htrim, -⟩ := h.bringsBack hready
  rw [Memory.nodes, Memory.nodes, hm.read, hm'.read]
  exact Instance.nodes_le htrim

end Nodes

section Potential

variable {e : Surroundings} {width t c k : ℕ} {m₀ m : Memory} {rules : List IsApplicableFn}
  {config : Configuration} {env : Environment} {s u : Search (Option Memory) (Option RuleObject)}
  {rs : List (Option RuleObject)}

/-- **What is left to be explored** from the stack of applied rules, the last one first. -/
inductive Pending (fuel : ℕ) (m₀ : Memory) : List (Option RuleObject) → Memory → ℕ → Prop
  | nil : Pending fuel m₀ [] m₀ 0
  | cons {rs : List (Option RuleObject)} {r : RuleObject} {m m' : Memory} {k : ℕ} :
      Pending fuel m₀ rs m k → r.unapply fuel m' = some ({ rule := r.rule, branch := r.branch }, m) →
      Pending fuel m₀ (some r :: rs) m' (k + r.pending * (1 + cost (2 * m.nodes fuel)))

/-- What is left to be explored from the rule that waits. -/
def queueCost (fuel : ℕ) (m : Memory) : List (Option RuleObject) → ℕ
  | [] => cost (2 * m.nodes fuel + 1)
  | some r :: _ => if r.isBranchingRule then r.pending * (1 + cost (2 * m.nodes fuel)) else cost (2 * m.nodes fuel)
  | none :: _ => 0

/-- **The search has the cost `c` left.** -/
def Potential (fuel : ℕ) (m₀ : Memory) (s : Search (Option Memory) (Option RuleObject)) (c : ℕ) : Prop :=
  ∃ m k, s.inst = some m ∧ Pending fuel m₀ s.appliedRules m k ∧ c = k + queueCost fuel m s.applyNext

/-- Every branch has a cost that is left. -/
theorem Branch.exists_pending {fuel : ℕ} (h : Branch width fuel m₀ rs m) :
    ∃ k, Pending fuel m₀ rs m k := by
  induction h with
  | nil => exact ⟨0, .nil⟩
  | cons _ _ _ _ hundo _ ih =>
      obtain ⟨k, hk⟩ := ih
      exact ⟨_, .cons hk hundo⟩

/-- Every search has a cost that is left. -/
theorem BranchInvariant.exists_potential (h : BranchInvariant e width m₀ s) :
    ∃ c, Potential e.fuel m₀ s c := by
  obtain ⟨m, hinst, hbranch, -⟩ := h
  obtain ⟨k, hk⟩ := hbranch.exists_pending
  exact ⟨_, m, k, hinst, hk, rfl⟩

/-- The cost depends on the instance, the stack and the queue only. -/
theorem Potential.congr (h : Potential e.fuel m₀ s c) (hinst : u.inst = s.inst)
    (happlied : u.appliedRules = s.appliedRules)
    (hnext : u.applyNext = s.applyNext) : Potential e.fuel m₀ u c := by
  obtain ⟨m, k, hm, hk, rfl⟩ := h
  exact ⟨m, k, hinst.trans hm, happlied ▸ hk, by rw [hnext]⟩

/-- **Rolling back** does not cost more than the stack had left. -/
theorem Pending.rollBackLoop (rules : List IsApplicableFn) (h : Pending e.fuel m₀ rs m k) :
    ∃ b rs' next m' k', Search.rollBackLoop (ruleSystem e rules) rs (some m) = (b, rs', next, some m') ∧
      Pending e.fuel m₀ rs' m' k' ∧ (b = false → k' + queueCost e.fuel m' next ≤ k) := by
  induction h with
  | nil => exact ⟨true, [], [], m₀, 0, rfl, .nil, fun h => absurd h.symm Bool.false_ne_true⟩
  | @cons rs r m m' k hpend hundo ih =>
      have hstep : (ruleSystem e rules).unapply (some r) (some m') =
          (some { rule := r.rule, branch := r.branch }, some m) := by
        simp only [ruleSystem, Option.bind_eq_bind, Option.bind_some, hundo]
      rw [Search.rollBackLoop, hstep]
      dsimp only
      split_ifs with hmore
      · rw [Bool.and_eq_true] at hmore
        refine ⟨false, rs, _, m, k, rfl, hpend, fun _ => ?_⟩
        have hbr : RuleObject.isBranchingRule { rule := r.rule, branch := r.branch } = true := hmore.1
        rw [queueCost, if_pos hbr]
        exact le_rfl
      · obtain ⟨b, rs', next, m'', k', hloop, hpend', hle⟩ := ih
        exact ⟨b, rs', next, m'', k', hloop, hpend', fun hb => (hle hb).trans (Nat.le_add_right _ _)⟩

/-- **One application pays for itself**: what it leads to, `x`, and the branches that are left, cost less
than what waited. -/
theorem queueCost_step {fuel x : ℕ} {r r' : RuleObject} {queue : List (Option RuleObject)}
    (hqueue : queue = [] ∧ r.branch = 0 ∨ queue = [some r])
    (hlt : r.isBranchingRule = true → r.branch < r.maxBranch)
    (hrule : r'.rule = r.rule)
    (hbranch : r'.branch = if r.isBranchingRule then r.branch + 1 else r.branch)
    (hx : x ≤ cost (2 * m.nodes fuel))
    (hplain : r.isBranchingRule = false → x < cost (2 * m.nodes fuel)) :
    1 + x + r'.pending * (1 + cost (2 * m.nodes fuel)) ≤ queueCost fuel m queue := by
  have hmax : r'.maxBranch = r.maxBranch := by rw [maxBranch, maxBranch, hrule]
  have hmax₃ : r.maxBranch ≤ 3 := by
    rw [maxBranch]
    split <;> omega
  cases hbr : r.isBranchingRule with
  | true =>
      have hlt := hlt hbr
      rw [hbr, if_pos rfl] at hbranch
      rcases hqueue with ⟨rfl, hzero⟩ | rfl
      · have hpend : r'.pending ≤ 2 := by
          rw [pending, hmax, hbranch]
          omega
        have := Nat.mul_le_mul_right (1 + cost (2 * m.nodes fuel)) hpend
        rw [queueCost, cost]
        omega
      · have hpend : r.pending = r'.pending + 1 := by
          rw [pending, pending, hmax, hbranch]
          omega
        rw [queueCost, if_pos hbr, hpend, Nat.add_one_mul r'.pending]
        omega
  | false =>
      have hx' := hplain hbr
      have hzero : r.maxBranch = 0 := by
        rw [isBranchingRule, decide_eq_false_iff_not] at hbr
        omega
      have hpend : r'.pending = 0 := by
        rw [pending, hmax, hzero, Nat.zero_sub]
      rw [hpend, Nat.zero_mul]
      rcases hqueue with ⟨rfl, -⟩ | rfl
      · rw [queueCost, cost]
        omega
      · rw [queueCost, hbr, if_neg Bool.false_ne_true]
        omega

/-- **The next rule is applied**, from the queue or after it was selected. -/
theorem BranchInvariant.exists_applied (hiter : ∀ m l, (e.iterated m l).Perm l) (ht : t ≠ 0)
    (hrules : rules = defaultRules e ∨ rules = approximationRules e ∨ rules = basicRuleList e)
    (h : SearchInvariant e width t m₀ s) (hb : BranchInvariant e width m₀ s) :
    ∃ X m r code r' m', s.inst = some m ∧ r.Ready width e.fuel t X m ∧ Waiting width e.fuel m r ∧
      Applied width e.fuel t X r m code r' m' ∧
      ((s.applyNext = [] ∧ ∃ rule, r = { rule := rule } ∧ firstApplicable s.context m rules = some rule) ∨
        s.applyNext = [some r]) ∧
      Search.applyRule (ruleSystem e rules) s =
        (code, some r', { s with inst := some m', appliedRules := some r' :: s.appliedRules, applyNext := [] }) := by
  obtain ⟨X, m, r, hinst, hready, hwait, hnext⟩ := h.exists_ready hiter ht hrules hb
  obtain ⟨code, r', m', happ⟩ := apply_spec hready
  obtain ⟨_, -, -, -, hqueue⟩ := h
  refine ⟨X, m, r, code, r', m', hinst, hready, hwait, happ, ?_, ?_⟩
  · rcases hqueue with hnil | ⟨q, hone, -⟩
    · refine Or.inl ⟨hnil, ?_⟩
      have hfst := congrArg Prod.fst hnext
      unfold Search.nextRule at hfst
      rw [hnil, hinst] at hfst
      obtain ⟨rule, hrule, hr⟩ := Option.bind_eq_some_iff.1 hfst
      exact ⟨rule, (Option.some.inj hr).symm, hrule⟩
    · have hfst := congrArg Prod.fst hnext
      unfold Search.nextRule at hfst
      rw [hone] at hfst
      exact Or.inr (by rw [hone, show some q = some r from hfst])
  · unfold Search.applyRule
    rw [hnext]
    simp only [ruleSystem, hinst, Option.bind_eq_bind, Option.bind_some, happ.applied]

/-- A branch that is rolled back, when the search goes on. -/
theorem Potential.rollBackBranch (hb : config.boundedDepthSearch = false) (hinst : s.inst = some m)
    (h : Pending e.fuel m₀ s.appliedRules m k)
    (hnone : (Search.searchSpaceFinished config (Search.rollBackBranch (ruleSystem e rules) env s).1
      (Search.rollBackBranch (ruleSystem e rules) env s).2).1 = none) :
    ∃ c ≤ k, Potential e.fuel m₀ (Search.searchSpaceFinished config
      (Search.rollBackBranch (ruleSystem e rules) env s).1
      (Search.rollBackBranch (ruleSystem e rules) env s).2).2 c := by
  have htime := Search.kept_timeoutReached env s
  obtain ⟨b, rs', next, m', k', hloop, hpend, hle⟩ := h.rollBackLoop rules
  have hfinished : ∀ {b : Bool} {u : Search (Option Memory) (Option RuleObject)},
      (Search.searchSpaceFinished config b u).1 = none →
        b = false ∧ (Search.searchSpaceFinished config b u).2 = u := by
    intro b u hu
    unfold Search.searchSpaceFinished at hu ⊢
    rw [hb, if_neg Bool.false_ne_true] at hu ⊢
    cases b
    · exact ⟨rfl, rfl⟩
    · cases hu
  obtain ⟨hfalse, heq⟩ := hfinished hnone
  rw [heq]
  unfold Search.rollBackBranch at hfalse ⊢
  dsimp only at hfalse ⊢
  by_cases hflag : (Search.timeoutReached env s).1 = true
  · rw [if_pos hflag] at hfalse
    cases hfalse
  · rw [if_neg hflag, htime.inst, htime.appliedRules, hinst, hloop] at hfalse ⊢
    exact ⟨_, hle hfalse, m', k', rfl, hpend, rfl⟩

/-- **An iteration after which the loop goes on** lowers the potential. -/
theorem Potential.advanceIteration (hiter : ∀ m l, (e.iterated m l).Perm l) (ht : t ≠ 0)
    (hb : config.boundedDepthSearch = false)
    (hrules : rules = defaultRules e ∨ rules = approximationRules e ∨ rules = basicRuleList e)
    (madeProgressThisCall : Bool) (h : SearchInvariant e width t m₀ s)
    (hbranch : BranchInvariant e width m₀ s)
    (hc : Potential e.fuel m₀ s c)
    (hnone : (Search.advanceIteration (ruleSystem e rules) config env madeProgressThisCall s).1 = none) :
    ∃ c' < c, Potential e.fuel m₀
      (Search.advanceIteration (ruleSystem e rules) config env madeProgressThisCall s).2 c' := by
  have hpause := Search.kept_pauseCheck env madeProgressThisCall s
  rcases Search.advanceIteration_cases (ruleSystem e rules) config env madeProgressThisCall s with
    ⟨-, heq⟩ | ⟨-, heq⟩ | ⟨-, heq⟩ | ⟨-, -, -, code, rule, u, -, happly, heq⟩
  · rw [heq] at hnone
    cases hnone
  · rw [heq] at hnone
    cases hnone
  · rw [heq] at hnone
    cases hnone
  · rw [heq] at hnone ⊢
    have h' := h.kept hpause
    obtain ⟨m, k, hinst, hpend, rfl⟩ := hc.congr hpause.inst hpause.appliedRules hpause.applyNext
    set v := (Search.pauseCheck env madeProgressThisCall (Search.timeoutReached env s).2).2
    obtain ⟨X, m₁, r, code', r', m', hinst', hready, hwait, happ, hqueue, hstep⟩ :=
      (hbranch.kept hpause).exists_applied hiter ht hrules h'
    obtain rfl := Option.some.inj (hinst'.symm.trans hinst)
    obtain ⟨rfl, hr, hu⟩ := Prod.mk.inj (happly.symm.trans hstep) |>.imp id Prod.mk.inj
    subst hr
    have hundone : r'.unapply e.fuel m' = some ({ rule := r'.rule, branch := r'.branch }, m₁) := by
      rw [happ.rule]
      exact happ.undone
    have hpend' := Pending.cons hpend hundone
    have hqueue' : v.applyNext = [] ∧ r.branch = 0 ∨ v.applyNext = [some r] :=
      hqueue.imp_left fun ⟨hnil, rule, hr, _⟩ => ⟨hnil, by rw [hr]⟩
    have hpay : ∀ x, x ≤ cost (2 * m₁.nodes e.fuel) →
        (r.isBranchingRule = false → x < cost (2 * m₁.nodes e.fuel)) →
        1 + x + r'.pending * (1 + cost (2 * m₁.nodes e.fuel)) ≤ queueCost e.fuel m₁ v.applyNext := fun x =>
      queueCost_step hqueue' hready.branch happ.rule happ.branch
    have hroll : ∀ {w : Search (Option Memory) (Option RuleObject)}, w.inst = u.inst →
        w.appliedRules = u.appliedRules →
        (Search.searchSpaceFinished config (Search.rollBackBranch (ruleSystem e rules) env w).1
          (Search.rollBackBranch (ruleSystem e rules) env w).2).1 = none →
        ∃ c' < k + queueCost e.fuel m₁ v.applyNext, Potential e.fuel m₀ (Search.searchSpaceFinished config
          (Search.rollBackBranch (ruleSystem e rules) env w).1
          (Search.rollBackBranch (ruleSystem e rules) env w).2).2 c' := by
      intro w hw happlied' hnone'
      have hinst' : w.inst = some m' := by rw [hw, hu]
      have hrules' : w.appliedRules = some r' :: v.appliedRules := by rw [happlied', hu]
      have hpaid := hpay 0 (Nat.zero_le _) fun _ => cost_pos _
      obtain ⟨c', hle, hpot⟩ := Potential.rollBackBranch hb hinst' (hrules' ▸ hpend') hnone'
      exact ⟨c', by omega, hpot⟩
    cases code with
    | immediateReturn => exact absurd rfl happ.goesOn
    | «continue» =>
        have hlt := happ.nodes_lt ht hready hwait rfl
        have hx : cost (2 * m'.nodes e.fuel + 1) < cost (2 * m₁.nodes e.fuel) :=
          (cost_lt_succ _).trans_le (cost_mono (by omega))
        have := hpay _ hx.le fun _ => hx
        rw [hu]
        refine ⟨_, ?_, m', _, rfl, hpend', rfl⟩
        change k + _ + cost (2 * m'.nodes e.fuel + 1) < _
        omega
    | continueWithRuleSuggestion =>
        have hle := happ.nodes_le hready
        obtain ⟨hbr, a, c, hq⟩ := happ.suggests hready
        have hplain : RuleObject.isBranchingRule { rule := .equalPairReduction a c } = false := rfl
        have := hpay (cost (2 * m'.nodes e.fuel)) (cost_mono (by omega)) fun hno => by
          rw [hbr] at hno
          cases hno
        rw [hu]
        refine ⟨_, ?_, m', _, rfl, hpend', rfl⟩
        change k + _ + queueCost e.fuel m' ([] ++ ((some r').map RuleObject.nextRuleSuggestion |>.getD []).map some) < _
        rw [Option.map_some, Option.getD_some, hq, List.nil_append, List.map_cons, queueCost, hplain,
          if_neg Bool.false_ne_true]
        omega
    | endBranchWithSolutionCandidate =>
        unfold Search.handleReturnCode at hnone ⊢
        dsimp only at hnone ⊢
        rw [hb, if_neg Bool.false_ne_true] at hnone ⊢
        refine hroll ?_ ?_ hnone
        all_goals
          unfold Search.checkSolutionCandidate
          dsimp only
          split_ifs <;> rfl
    | cutBranch => exact hroll rfl rfl hnone

end Potential

section Runs

variable {e : Surroundings} {width : ℕ} {m₀ : Memory} {Fs : List Forest} {X : Finset Label}
  {rules : List IsApplicableFn} {config : Configuration} {env : Environment}
  {s₀ s : Search (Option Memory) (Option RuleObject)}

/-- A call of `advanceSearch` comes to a last iteration. -/
theorem exists_lastIteration (hm₀ : m₀.IsInstance width e.fuel Fs X) (he : e.Fits X)
    (hb : config.boundedDepthSearch = false)
    (hrules : rules = defaultRules e ∨ rules = approximationRules e ∨ rules = basicRuleList e)
    (hs₀ : s₀.Starts m₀) (h : Search.Session (ruleSystem e rules) config env s₀ s)
    (madeProgressThisCall : Bool) :
    ∃ n result log b u, Search.Session (ruleSystem e rules) config env s₀ u ∧
      (Search.advanceIteration (ruleSystem e rules) config env b u).1 = some result ∧
      Search.advanceSearch (ruleSystem e rules) config env n madeProgressThisCall s =
        some (result, log, (Search.advanceIteration (ruleSystem e rules) config env b u).2) := by
  have ht : Fs.length ≠ 0 := fun h => hm₀.nonempty (List.length_eq_zero_iff.1 h)
  obtain ⟨c, hc⟩ := (BranchInvariant.of_session hm₀ he hrules hs₀ h).exists_potential
  -- the potential falls with every iteration
  induction c using Nat.strong_induction_on generalizing s madeProgressThisCall with
  | _ c ih =>
      have hbranch := BranchInvariant.of_session hm₀ he hrules hs₀ h
      have hinv := SearchInvariant.of_search hm₀ he hrules hs₀ h.reachable
      cases hresult : (Search.advanceIteration (ruleSystem e rules) config env madeProgressThisCall s).1 with
      | some result =>
          refine ⟨1, result, Search.iterationLog (ruleSystem e rules) config env madeProgressThisCall s,
            madeProgressThisCall, s, h, hresult, ?_⟩
          rw [Search.advanceSearch, hresult]
      | none =>
          obtain ⟨c', hlt, hc'⟩ := hc.advanceIteration he.iterated ht hb hrules madeProgressThisCall hinv hbranch
            hresult
          obtain ⟨n, result, log, b, u, hu, hlast, hcall⟩ :=
            ih c' hlt (.iterate madeProgressThisCall h) true hc'
          refine ⟨n + 1, result, Search.iterationLog (ruleSystem e rules) config env madeProgressThisCall s ++ log,
            b, u, hu, hlast, ?_⟩
          rw [Search.advanceSearch, hresult]
          dsimp only
          rw [hcall]

/-- **`advanceSearch` returns.**  In the unbounded mode (`boundedDepthSearch = false`), in every state of a
session, whatever the clock and the timeout flag say, whatever weighs a solution and whatever was recorded at
the start, one more call comes to an end: exhausted or paused. -/
theorem advanceSearch_returns (hm₀ : m₀.IsInstance width e.fuel Fs X) (he : e.Fits X)
    (hb : config.boundedDepthSearch = false)
    (hrules : rules = defaultRules e ∨ rules = approximationRules e ∨ rules = basicRuleList e)
    (hs₀ : s₀.Starts m₀) (h : Search.Session (ruleSystem e rules) config env s₀ s)
    (madeProgressThisCall : Bool) :
    ∃ n result log t, Search.advanceSearch (ruleSystem e rules) config env n madeProgressThisCall s =
        some (result, log, t) ∧
      Search.Session (ruleSystem e rules) config env s₀ t := by
  obtain ⟨n, result, log, b, u, hu, -, hcall⟩ :=
    exists_lastIteration hm₀ he hb hrules hs₀ h madeProgressThisCall
  exact ⟨n, result, log, _, hcall, .iterate b hu⟩

/-- A first call for five labels returns. -/
theorem advanceSearch_returns_fiveLabels :
    ∃ n result log t, Search.advanceSearch (ruleSystem fiveLabelsSurroundings (defaultRules fiveLabelsSurroundings)) {}
        { clock := fun _ => 0 } n false { inst := some (Memory.ofForests 1 fiveLabels), context := {} } =
          some (result, log, t) ∧
      Search.Session (ruleSystem fiveLabelsSurroundings (defaultRules fiveLabelsSurroundings)) {}
        { clock := fun _ => 0 }
        { inst := some (Memory.ofForests 1 fiveLabels), context := {} } t :=
  advanceSearch_returns isInstance_fiveLabels fits_fiveLabels rfl (Or.inl rfl) ⟨rfl, rfl, rfl⟩ .start false

end Runs

end Maf
