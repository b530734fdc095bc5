/-
# Pausing and resuming a search

`BranchingSolver::advanceSearch` (`src/Solver/BranchingSolver.cpp`) returns
`Paused` once its deadline has passed, with all state kept for the next call.
The caller arms the deadline before a call, or leaves it as it is.

A history of such calls is compared with one call that has no deadline.  What
the two share is the `core` of the solver: everything but the deadline and the
throttled reading of the clock.  An iteration that pauses leaves the core alone,
and every other iteration is a function of it, for any rules whatever.
-/

import Maf.Solver.BranchingSolver

namespace Maf.Search

variable {σ ρ : Type*} (R : RuleSystem σ ρ) (config : Configuration) (env : Environment)

/-- The rule an iteration of `advanceSearch` applies, as `onApply` is told of it,
with its return code. -/
def iterationLog (madeProgressThisCall : Bool) (s : Search σ ρ) : List (RuleReturnCode × ρ) :=
  if certified config s then []
  else
    let t := timeoutReached env s
    if t.1 then []
    else
      let p := pauseCheck env madeProgressThisCall t.2
      if p.1 then []
      else
        let a := applyRule R p.2
        [(a.1, a.2.1)]

/-- **`advanceSearch`**, with the rules it applied and their return codes; `none`
when the iterations run out. -/
def advanceSearch : ℕ → Bool → Search σ ρ → Option (RunResult × List (RuleReturnCode × ρ) × Search σ ρ)
  | 0, _, _ => none
  | fuel + 1, madeProgressThisCall, s =>
      let i := advanceIteration R config env madeProgressThisCall s
      let log := iterationLog R config env madeProgressThisCall s
      match i.1 with
      | some result => some (result, log, i.2)
      | none =>
          match advanceSearch fuel true i.2 with
          | some (result, rest, t) => some (result, log ++ rest, t)
          | none => none

/-- A deadline set before a call, if any. -/
def arm (deadline : Option ℚ) (s : Search σ ρ) : Search σ ρ :=
  match deadline with
  | some d => s.setPauseDeadline d
  | none => s

/-- Calls of `advanceSearch`, the first of them the `n`-th, until one returns
something other than `Paused`.  The caller sets `deadlines n` before the `n`-th
call, and `envs n` is the clock during it. -/
inductive Repeated (deadlines : ℕ → Option ℚ) (envs : ℕ → Environment) :
    ℕ → Search σ ρ → RunResult → List (RuleReturnCode × ρ) → Search σ ρ → Prop
  | last {n fuel : ℕ} {s t : Search σ ρ} {result : RunResult} {log : List (RuleReturnCode × ρ)}
      (call : advanceSearch R config (envs n) fuel false (arm (deadlines n) s) = some (result, log, t))
      (ended : result ≠ .paused) : Repeated deadlines envs n s result log t
  | paused {n fuel : ℕ} {s t u : Search σ ρ} {result : RunResult}
      {log rest : List (RuleReturnCode × ρ)}
      (call : advanceSearch R config (envs n) fuel false (arm (deadlines n) s) = some (.paused, log, t))
      (next : Repeated deadlines envs (n + 1) t result rest u) :
      Repeated deadlines envs n s result (log ++ rest) u

/-- The solver without its deadline and its reading of the clock. -/
def core (s : Search σ ρ) : Search σ ρ :=
  { s with pauseDeadline := none, pauseDeadlinePassed := false, clockCheckCountdown := 0, clockReads := 0 }

/-- The core of the core is the core. -/
@[simp] theorem core_core (s : Search σ ρ) : core (core s) = core s := rfl

/-- Arming the search leaves the core alone. -/
@[simp] theorem core_arm (deadline : Option ℚ) (s : Search σ ρ) : core (arm deadline s) = core s := by
  cases deadline <;> rfl

/-! ### The core of what an iteration does -/

/-- Whether a solution certifies depends on the core. -/
theorem certified_core (s : Search σ ρ) : certified config (core s) = certified config s := rfl

/-- Without a flag no timeout is reached. -/
theorem timeoutReached_of_none (h : env.timeoutFlag = none) (s : Search σ ρ) :
    timeoutReached env s = (false, s) := by
  simp only [timeoutReached, h]

/-- Without a deadline the search is never paused. -/
theorem pauseCheck_core (madeProgress : Bool) (s : Search σ ρ) :
    pauseCheck env madeProgress (core s) = (false, core s) := by
  cases madeProgress <;> rfl

/-- Reading the clock leaves the core alone. -/
theorem core_pauseReached (s : Search σ ρ) : core (pauseReached env s).2 = core s := by
  unfold pauseReached
  by_cases hp : s.pauseDeadlinePassed
  · rw [if_pos hp]
  · rw [if_neg hp]
    cases s.pauseDeadline with
    | none => rfl
    | some d =>
        dsimp only
        by_cases hc : s.clockCheckCountdown = 0
        · rw [if_pos hc]; rfl
        · rw [if_neg hc]; rfl

/-- The pause check leaves the core alone. -/
theorem core_pauseCheck (madeProgress : Bool) (s : Search σ ρ) :
    core (pauseCheck env madeProgress s).2 = core s := by
  cases madeProgress
  · rfl
  · exact core_pauseReached env s

/-- Applying a rule depends on the core. -/
theorem applyRule_core (s : Search σ ρ) :
    applyRule R (core s) = ((applyRule R s).1, (applyRule R s).2.1, core (applyRule R s).2.2) := by
  obtain ⟨inst, context, applied, queue, branch⟩ := s
  cases queue <;> rfl

/-- Recording a solution depends on the core. -/
theorem checkSolutionCandidate_core (s : Search σ ρ) :
    checkSolutionCandidate R (core s) = core (checkSolutionCandidate R s) := by
  by_cases h : ((R.weightFunction s.inst : ℚ) : WithTop ℚ) < s.context.bestSolutionWeight
  · have h' : ((R.weightFunction (core s).inst : ℚ) : WithTop ℚ) < (core s).context.bestSolutionWeight := h
    simp only [checkSolutionCandidate, if_pos h, if_pos h']
    rfl
  · have h' : ¬((R.weightFunction (core s).inst : ℚ) : WithTop ℚ) < (core s).context.bestSolutionWeight := h
    simp only [checkSolutionCandidate, if_neg h, if_neg h']

/-- The end of the search space depends on the core. -/
theorem searchSpaceFinished_core (b : Bool) (s : Search σ ρ) :
    searchSpaceFinished config b (core s) =
      ((searchSpaceFinished config b s).1, core (searchSpaceFinished config b s).2) := by
  unfold searchSpaceFinished
  cases b <;> cases config.boundedDepthSearch <;> rfl

/-- Rolling back depends on the core, when no flag is set. -/
theorem rollBackBranch_core {env env' : Environment} (h : env.timeoutFlag = none)
    (h' : env'.timeoutFlag = none) (s : Search σ ρ) :
    rollBackBranch R env' (core s) = ((rollBackBranch R env s).1, core (rollBackBranch R env s).2) := by
  unfold rollBackBranch
  rw [timeoutReached_of_none env h, timeoutReached_of_none env' h']
  rfl

/-- Handling a return code depends on the core, when no flag is set. -/
theorem handleReturnCode_core {env env' : Environment} (h : env.timeoutFlag = none)
    (h' : env'.timeoutFlag = none) (code : RuleReturnCode) (rule : ρ) (s : Search σ ρ) :
    handleReturnCode R config env' code rule (core s) =
      ((handleReturnCode R config env code rule s).1, core (handleReturnCode R config env code rule s).2) := by
  cases code with
  | immediateReturn => exact searchSpaceFinished_core config true s
  | «continue» => rfl
  | continueWithRuleSuggestion => rfl
  | cutBranch =>
      unfold handleReturnCode
      dsimp only
      rw [rollBackBranch_core R h h']
      exact searchSpaceFinished_core config _ _
  | endBranchWithSolutionCandidate =>
      unfold handleReturnCode
      dsimp only
      cases config.boundedDepthSearch
      · rw [checkSolutionCandidate_core, rollBackBranch_core R h h']
        exact searchSpaceFinished_core config _ _
      · rfl

/-- What follows an application never pauses. -/
theorem handleReturnCode_ne_paused (code : RuleReturnCode) (rule : ρ) (s : Search σ ρ) :
    (handleReturnCode R config env code rule s).1 ≠ some .paused := by
  have hfin : ∀ b (u : Search σ ρ), (searchSpaceFinished config b u).1 ≠ some .paused := by
    intro b u
    unfold searchSpaceFinished
    cases b <;> cases config.boundedDepthSearch <;> simp
  cases code with
  | immediateReturn => exact hfin true s
  | «continue» => simp [handleReturnCode]
  | continueWithRuleSuggestion => simp [handleReturnCode]
  | cutBranch => exact hfin _ _
  | endBranchWithSolutionCandidate =>
      unfold handleReturnCode
      dsimp only
      cases config.boundedDepthSearch
      · exact hfin _ _
      · simp

/-- **An iteration that pauses** comes after one that applied a rule, and leaves
the core alone. -/
theorem advanceIteration_paused {env : Environment} (hflag : env.timeoutFlag = none)
    {madeProgress : Bool} {s : Search σ ρ}
    (h : (advanceIteration R config env madeProgress s).1 = some .paused) :
    madeProgress = true ∧ iterationLog R config env madeProgress s = [] ∧
      core (advanceIteration R config env madeProgress s).2 = core s := by
  have ht := timeoutReached_of_none env hflag s
  unfold advanceIteration iterationLog at *
  by_cases hc : certified config s
  · rw [if_pos hc] at h
    cases h
  · simp only [if_neg hc, ht, Bool.false_eq_true, if_false] at h ⊢
    by_cases hp : (pauseCheck env madeProgress s).1 = true
    · simp only [if_pos hp]
      refine ⟨?_, trivial, core_pauseCheck env madeProgress s⟩
      cases madeProgress
      · cases hp
      · rfl
    · rw [if_neg hp] at h
      exact absurd h (handleReturnCode_ne_paused R config env _ _ _)

/-- **An iteration that does not pause** is a function of the core. -/
theorem advanceIteration_core {env env' : Environment} (hflag : env.timeoutFlag = none)
    (hflag' : env'.timeoutFlag = none) {madeProgress : Bool} (madeProgress' : Bool) {s : Search σ ρ}
    (h : (advanceIteration R config env madeProgress s).1 ≠ some .paused) :
    advanceIteration R config env' madeProgress' (core s) =
      ((advanceIteration R config env madeProgress s).1, core (advanceIteration R config env madeProgress s).2) ∧
    iterationLog R config env' madeProgress' (core s) = iterationLog R config env madeProgress s := by
  have ht := timeoutReached_of_none env hflag s
  have ht' := timeoutReached_of_none env' hflag' (core s)
  unfold advanceIteration iterationLog at *
  rw [certified_core]
  by_cases hc : certified config s
  · simp only [if_pos hc, and_self]
  · simp only [if_neg hc, ht, ht', pauseCheck_core, Bool.false_eq_true, if_false] at h ⊢
    by_cases hp : (pauseCheck env madeProgress s).1 = true
    · rw [if_pos hp] at h
      exact absurd rfl h
    · have happly := applyRule_core R (pauseCheck env madeProgress s).2
      rw [core_pauseCheck] at happly
      simp only [if_neg hp, happly, and_true]
      exact handleReturnCode_core R config hflag hflag' _ _ _

/-- An iteration that goes on has applied one rule. -/
theorem length_iterationLog {madeProgress : Bool} {s : Search σ ρ}
    (h : (advanceIteration R config env madeProgress s).1 = none) :
    (iterationLog R config env madeProgress s).length = 1 := by
  unfold advanceIteration iterationLog at *
  dsimp only at h ⊢
  by_cases hc : certified config s
  · rw [if_pos hc] at h
    cases h
  rw [if_neg hc] at h ⊢
  by_cases ht : (timeoutReached env s).1 = true
  · rw [if_pos ht] at h
    cases h
  rw [if_neg ht] at h ⊢
  by_cases hp : (pauseCheck env madeProgress (timeoutReached env s).2).1 = true
  · rw [if_pos hp] at h
    cases h
  · rw [if_neg hp]
    rfl

/-! ### Whole calls -/

/-- The call that ends in the iteration at hand. -/
theorem advanceSearch_of_some {madeProgress : Bool} {s : Search σ ρ} {result : RunResult} (fuel : ℕ)
    (h : (advanceIteration R config env madeProgress s).1 = some result) :
    advanceSearch R config env (fuel + 1) madeProgress s =
      some (result, iterationLog R config env madeProgress s, (advanceIteration R config env madeProgress s).2) := by
  simp only [advanceSearch, h]

/-- The call that goes on after the iteration at hand. -/
theorem advanceSearch_of_none {madeProgress : Bool} {s : Search σ ρ} {out} (fuel : ℕ)
    (h : (advanceIteration R config env madeProgress s).1 = none) :
    advanceSearch R config env (fuel + 1) madeProgress s = some out ↔
      ∃ rest, advanceSearch R config env fuel true (advanceIteration R config env madeProgress s).2 =
        some (out.1, rest, out.2.2) ∧ out.2.1 = iterationLog R config env madeProgress s ++ rest := by
  simp only [advanceSearch, h]
  cases hr : advanceSearch R config env fuel true (advanceIteration R config env madeProgress s).2 with
  | none => simp
  | some r =>
      obtain ⟨result, rest, t⟩ := r
      obtain ⟨result', log, t'⟩ := out
      simp only [Option.some.injEq, Prod.mk.injEq]
      constructor
      · rintro ⟨rfl, rfl, rfl⟩
        exact ⟨rest, ⟨rfl, rfl, rfl⟩, rfl⟩
      · rintro ⟨rest', ⟨rfl, rfl, rfl⟩, rfl⟩
        exact ⟨rfl, rfl, rfl⟩

/-- **A call that ends without a pause** does what the uninterrupted one does. -/
theorem advanceSearch_core {env env' : Environment} (hflag : env.timeoutFlag = none)
    (hflag' : env'.timeoutFlag = none) {fuel : ℕ} {madeProgress madeProgress' : Bool} {s t : Search σ ρ}
    {result : RunResult} {log : List (RuleReturnCode × ρ)}
    (h : advanceSearch R config env fuel madeProgress s = some (result, log, t)) (hr : result ≠ .paused) :
    advanceSearch R config env' fuel madeProgress' (core s) = some (result, log, core t) := by
  induction fuel generalizing madeProgress madeProgress' s log with
  | zero => cases h
  | succ fuel ih =>
      cases hi : (advanceIteration R config env madeProgress s).1 with
      | some r =>
          rw [advanceSearch_of_some R config env fuel hi] at h
          simp only [Option.some.injEq, Prod.mk.injEq] at h
          obtain ⟨rfl, rfl, rfl⟩ := h
          have hne : (advanceIteration R config env madeProgress s).1 ≠ some .paused := by
            rw [hi]
            simpa using hr
          obtain ⟨hcore, hlog⟩ := advanceIteration_core R config hflag hflag' madeProgress' hne
          rw [advanceSearch_of_some R config env' fuel (by rw [hcore]; exact hi), hlog, hcore]
      | none =>
          obtain ⟨rest, hrest, rfl⟩ := (advanceSearch_of_none R config env fuel hi).1 h
          obtain ⟨hcore, hlog⟩ := advanceIteration_core R config hflag hflag' madeProgress' (by rw [hi]; simp)
          refine (advanceSearch_of_none R config env' fuel (by rw [hcore]; exact hi)).2 ⟨rest, ?_, ?_⟩
          · rw [hcore]
            exact ih hrest
          · rw [hlog]

/-- More fuel changes nothing. -/
theorem advanceSearch_mono {fuel fuel' : ℕ} (hle : fuel ≤ fuel') {madeProgress : Bool} {s : Search σ ρ} {out}
    (h : advanceSearch R config env fuel madeProgress s = some out) :
    advanceSearch R config env fuel' madeProgress s = some out := by
  induction fuel generalizing fuel' madeProgress s out with
  | zero => cases h
  | succ fuel ih =>
      obtain ⟨fuel', rfl⟩ : ∃ k, fuel' = k + 1 := ⟨fuel' - 1, by omega⟩
      cases hi : (advanceIteration R config env madeProgress s).1 with
      | some r =>
          rw [advanceSearch_of_some R config env fuel hi] at h
          rw [advanceSearch_of_some R config env fuel' hi, h]
      | none =>
          obtain ⟨rest, hrest, hlog⟩ := (advanceSearch_of_none R config env fuel hi).1 h
          exact (advanceSearch_of_none R config env fuel' hi).2 ⟨rest, ih (by omega) hrest, hlog⟩

/-- Without a deadline it does not matter whether the call has made progress. -/
theorem advanceSearch_core_irrel {env : Environment} (hflag : env.timeoutFlag = none) {fuel : ℕ}
    {madeProgress : Bool} (madeProgress' : Bool) {s t : Search σ ρ} {result : RunResult}
    {log : List (RuleReturnCode × ρ)}
    (h : advanceSearch R config env fuel madeProgress (core s) = some (result, log, core t))
    (hr : result ≠ .paused) :
    advanceSearch R config env fuel madeProgress' (core s) = some (result, log, core t) := by
  have h' : advanceSearch R config env fuel madeProgress' (core (core s)) =
      some (result, log, core (core t)) := advanceSearch_core R config hflag hflag h hr
  exact h'

/-- **A call that pauses** has done the first part of the uninterrupted one. -/
theorem advanceSearch_paused {env env' : Environment} (hflag : env.timeoutFlag = none)
    (hflag' : env'.timeoutFlag = none) {fuel : ℕ} {madeProgress madeProgress' : Bool} {s t u : Search σ ρ}
    {result : RunResult} {log rest : List (RuleReturnCode × ρ)}
    (h : advanceSearch R config env fuel madeProgress s = some (.paused, log, t)) {fuel' : ℕ}
    (h' : advanceSearch R config env' fuel' false (core t) = some (result, rest, core u))
    (hr : result ≠ .paused) :
    advanceSearch R config env' (fuel + fuel') madeProgress' (core s) = some (result, log ++ rest, core u) := by
  induction fuel generalizing madeProgress madeProgress' s log with
  | zero => cases h
  | succ fuel ih =>
      cases hi : (advanceIteration R config env madeProgress s).1 with
      | some r =>
          rw [advanceSearch_of_some R config env fuel hi] at h
          simp only [Option.some.injEq, Prod.mk.injEq] at h
          obtain ⟨rfl, rfl, rfl⟩ := h
          obtain ⟨-, hlog, hcore⟩ := advanceIteration_paused R config hflag hi
          rw [hcore] at h'
          rw [hlog, List.nil_append]
          have hle : fuel' ≤ fuel + 1 + fuel' := by omega
          exact advanceSearch_mono R config env' hle
            (advanceSearch_core_irrel R config hflag' madeProgress' h' hr)
      | none =>
          obtain ⟨log', hlog', rfl⟩ := (advanceSearch_of_none R config env fuel hi).1 h
          obtain ⟨hcore, hlog⟩ := advanceIteration_core R config hflag hflag' madeProgress' (by rw [hi]; simp)
          rw [Nat.succ_add]
          refine (advanceSearch_of_none R config env' _ (by rw [hcore]; exact hi)).2 ⟨log' ++ rest, ?_, ?_⟩
          · rw [hcore]
            exact ih hlog'
          · rw [hlog, List.append_assoc]

/-- **What is left of the uninterrupted call** after a call of the history: nothing,
or after a pause a call that is shorter by the rules applied. -/
theorem advanceSearch_split {env env' : Environment} (hflag : env.timeoutFlag = none)
    (hflag' : env'.timeoutFlag = none) {fuel : ℕ} (madeProgress : Bool) {madeProgress' : Bool}
    {s t : Search σ ρ} {result : RunResult} {log : List (RuleReturnCode × ρ)} (hr : result ≠ .paused)
    (h : advanceSearch R config env' fuel madeProgress' (core s) = some (result, log, core t)) :
    (∃ fuel' t', advanceSearch R config env fuel' madeProgress s = some (result, log, t') ∧
      core t' = core t) ∨
    ∃ fuel₁ fuel₂ t' log₁ log₂, advanceSearch R config env fuel₁ madeProgress s = some (.paused, log₁, t') ∧
      advanceSearch R config env' fuel₂ false (core t') = some (result, log₂, core t) ∧
      log = log₁ ++ log₂ ∧ fuel₂ + log₁.length ≤ fuel := by
  induction fuel generalizing madeProgress madeProgress' s log with
  | zero => cases h
  | succ fuel ih =>
      by_cases hp : (advanceIteration R config env madeProgress s).1 = some .paused
      · obtain ⟨-, hlog, hcore⟩ := advanceIteration_paused R config hflag hp
        refine Or.inr ⟨1, fuel + 1, (advanceIteration R config env madeProgress s).2, [], log, ?_, ?_, rfl,
          le_rfl⟩
        · rw [advanceSearch_of_some R config env 0 hp, hlog]
        · rw [hcore]
          exact advanceSearch_core_irrel R config hflag' false h hr
      obtain ⟨hcore, hlog⟩ := advanceIteration_core R config hflag hflag' madeProgress' hp
      cases hi : (advanceIteration R config env madeProgress s).1 with
      | some r =>
          rw [advanceSearch_of_some R config env' fuel (by rw [hcore]; exact hi), hlog, hcore] at h
          simp only [Option.some.injEq, Prod.mk.injEq] at h
          obtain ⟨rfl, rfl, ht⟩ := h
          exact Or.inl ⟨1, _, advanceSearch_of_some R config env 0 hi, ht⟩
      | none =>
          have hlen := length_iterationLog R config env hi
          obtain ⟨rest, hrest, rfl⟩ :=
            (advanceSearch_of_none R config env' fuel (by rw [hcore]; exact hi)).1 h
          rw [hcore] at hrest
          rcases ih true hrest with ⟨f, t', hcall, ht⟩ | ⟨f₁, f₂, t', log₁, log₂, hcall, hleft, rfl, hle⟩
          · refine Or.inl ⟨f + 1, t', ?_, ht⟩
            exact (advanceSearch_of_none R config env f hi).2 ⟨rest, hcall, by rw [hlog]⟩
          · refine Or.inr ⟨f₁ + 1, f₂, t', iterationLog R config env madeProgress s ++ log₁, log₂, ?_, hleft, ?_, ?_⟩
            · exact (advanceSearch_of_none R config env f₁ hi).2 ⟨log₁, hcall, rfl⟩
            · rw [hlog, List.append_assoc]
            · rw [List.length_append]
              omega

/-- A call without a deadline does not pause, and sets none. -/
theorem advanceSearch_uninterrupted {env : Environment} (hflag : env.timeoutFlag = none) {fuel : ℕ}
    {madeProgress : Bool} {s t : Search σ ρ} {result : RunResult} {log : List (RuleReturnCode × ρ)}
    (h : advanceSearch R config env fuel madeProgress (core s) = some (result, log, t)) :
    result ≠ .paused ∧ core t = t := by
  induction fuel generalizing madeProgress s log with
  | zero => cases h
  | succ fuel ih =>
      have hne : (advanceIteration R config env false (core s)).1 ≠ some .paused := fun hp =>
        Bool.false_ne_true (advanceIteration_paused R config hflag hp).1
      obtain ⟨hcore, -⟩ := advanceIteration_core R config hflag hflag madeProgress hne
      rw [core_core] at hcore
      cases hi : (advanceIteration R config env madeProgress (core s)).1 with
      | some r =>
          rw [advanceSearch_of_some R config env fuel hi] at h
          simp only [Option.some.injEq, Prod.mk.injEq] at h
          obtain ⟨rfl, -, rfl⟩ := h
          rw [hcore] at hi ⊢
          exact ⟨fun hr => hne (by rw [← hr]; exact hi), rfl⟩
      | none =>
          obtain ⟨rest, hrest, -⟩ := (advanceSearch_of_none R config env fuel hi).1 h
          rw [hcore] at hrest
          exact ih hrest

/-- **A call that pauses has applied a rule.** -/
theorem log_ne_nil_of_paused {env : Environment} (hflag : env.timeoutFlag = none) {fuel : ℕ}
    {s t : Search σ ρ} {log : List (RuleReturnCode × ρ)}
    (h : advanceSearch R config env fuel false s = some (.paused, log, t)) : log ≠ [] := by
  cases fuel with
  | zero => cases h
  | succ fuel =>
      cases hi : (advanceIteration R config env false s).1 with
      | some r =>
          rw [advanceSearch_of_some R config env fuel hi] at h
          simp only [Option.some.injEq, Prod.mk.injEq] at h
          rw [h.1] at hi
          exact absurd (advanceIteration_paused R config hflag hi).1 Bool.false_ne_true
      | none =>
          obtain ⟨rest, -, rfl⟩ := (advanceSearch_of_none R config env fuel hi).1 h
          have hlen := length_iterationLog R config env hi
          intro hnil
          rw [(List.append_eq_nil_iff.1 hnil).1] at hlen
          cases hlen

/-! ### Histories of calls -/

variable {deadlines : ℕ → Option ℚ} {envs : ℕ → Environment} {env₀ : Environment}

/-- The uninterrupted call behind a history. -/
theorem Repeated.uninterrupted {n : ℕ} {s t : Search σ ρ} {result : RunResult}
    {log : List (RuleReturnCode × ρ)} (h : Repeated R config deadlines envs n s result log t)
    (hflags : ∀ n, (envs n).timeoutFlag = none) (hflag : env₀.timeoutFlag = none) :
    result ≠ .paused ∧
      ∃ fuel, advanceSearch R config env₀ fuel false (core s) = some (result, log, core t) := by
  induction h with
  | @last n fuel s t result log call ended =>
      refine ⟨ended, fuel, ?_⟩
      rw [← core_arm (deadlines n) s]
      exact advanceSearch_core R config (hflags n) hflag call ended
  | @paused n fuel s t u result log rest call next ih =>
      obtain ⟨hr, fuel', hrest⟩ := ih
      refine ⟨hr, fuel + fuel', ?_⟩
      rw [← core_arm (deadlines n) s]
      exact advanceSearch_paused R config (hflags n) hflag call hrest hr

/-- The history behind an uninterrupted call, for any deadlines and clocks. -/
theorem exists_repeated (hflags : ∀ n, (envs n).timeoutFlag = none) (hflag : env₀.timeoutFlag = none)
    {fuel : ℕ} (n : ℕ) {s t : Search σ ρ} {result : RunResult} {log : List (RuleReturnCode × ρ)}
    (hr : result ≠ .paused)
    (h : advanceSearch R config env₀ fuel false (core s) = some (result, log, core t)) :
    ∃ t', Repeated R config deadlines envs n s result log t' ∧ core t' = core t := by
  induction fuel using Nat.strong_induction_on generalizing n s log with
  | _ fuel ih =>
      rw [← core_arm (deadlines n) s] at h
      rcases advanceSearch_split R config (hflags n) hflag false hr h with
        ⟨f, t', hcall, ht⟩ | ⟨f₁, f₂, t', log₁, log₂, hcall, hleft, rfl, hle⟩
      · exact ⟨t', .last hcall hr, ht⟩
      · have hpos := List.length_pos_iff.2 (log_ne_nil_of_paused R config (hflags n) hcall)
        obtain ⟨u, hu, hcore⟩ := ih f₂ (by omega) (n + 1) hleft
        exact ⟨u, .paused hcall hu, hcore⟩

/-- **Pausing is invisible.** For all rules and all deadlines and clock readings
of the calls, the history of calls applies the same rules with the same return
codes as one uninterrupted call, and ends with the same result and in the same
state up to the deadline and the clock; the history ends exactly when that call
does; and a call that pauses has applied a rule. -/
theorem pause_invisible (deadlines : ℕ → Option ℚ) (envs : ℕ → Environment) (env₀ : Environment)
    (hflags : ∀ n, (envs n).timeoutFlag = none) (hflag : env₀.timeoutFlag = none)
    (s : Search σ ρ) :
    (∀ result log t, Repeated R config deadlines envs 0 s result log t →
      ∃ fuel, advanceSearch R config env₀ fuel false (core s) = some (result, log, core t)) ∧
    (∀ fuel result log t, advanceSearch R config env₀ fuel false (core s) = some (result, log, t) →
      ∃ t', Repeated R config deadlines envs 0 s result log t' ∧ core t' = t) ∧
    ∀ n fuel u log t, advanceSearch R config (envs n) fuel false u = some (.paused, log, t) → log ≠ [] := by
  refine ⟨fun result log t h => ?_, fun fuel result log t h => ?_, fun n fuel u log t h => ?_⟩
  · exact (h.uninterrupted R config hflags hflag).2
  · obtain ⟨hr, ht⟩ := advanceSearch_uninterrupted R config hflag h
    rw [← ht] at h
    obtain ⟨t', hrep, hcore⟩ := exists_repeated R config hflags hflag 0 hr h
    exact ⟨t', hrep, hcore.trans ht⟩
  · exact log_ne_nil_of_paused R config (hflags n) h

/-- One rule, which continues a number of times and then returns. -/
def countdownRules : RuleSystem ℕ Unit where
  isApplicable _ _ := ()
  apply _ n := (if n = 0 then .immediateReturn else .continue, (), n - 1)
  nextRuleSuggestion _ := []
  unapply _ n := ((), n + 1)
  isBranchingRule _ := false
  isFullyExplored _ := true
  clone _ := ()
  weightFunction _ := 1

/-- Every call is paused after one rule, and the search ends as without a pause. -/
theorem pause_invisible_countdown :
    ∃ t, Repeated countdownRules {} (fun _ => some 0) (fun _ => ⟨fun _ => 1, none⟩) 0
      { inst := 2, context := {} } .exhausted
      [(.continue, ()), (.continue, ()), (.immediateReturn, ())] t ∧
      core t = { inst := 0, context := {}, appliedRules := [(), (), ()] } :=
  (pause_invisible countdownRules {} _ (fun _ => ⟨fun _ => 1, none⟩) ⟨fun _ => 0, none⟩ (fun _ => rfl) rfl
    { inst := 2, context := {} }).2.1 3 _ _ _ rfl

end Maf.Search
