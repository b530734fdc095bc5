/-
# The search loop of the branching solver

`src/Solver/BranchingSolver.cpp`, with the fields of `src/Solver/Context.hpp`
and `src/Solver/BranchingSolverConfiguration.hpp` it reads.  The solver applies
rules to an instance, remembers them on a stack, unwinds them back to the last
rule with an unexplored branch, and keeps clones of the rules that led to its
best solution.

What a rule does to the instance is a parameter (`RuleSystem`): `σ` is the state
the rules work on, the instance with its protected edges, and `ρ` a rule with
its branch counter and the data its `unapply` needs.  The loop itself is one
function, `advanceIteration`, from a state of the solver to the next; every
reading of the clock and of the timeout flag takes the next value the
environment provides.  Plugins observe the search and change nothing; they are
left out.
-/

import Mathlib.Algebra.Order.Floor.Ring
import Mathlib.Data.Rat.Floor
import Mathlib.Order.WithBot
import Mathlib.Tactic

namespace Maf

/-- What a rule asks the search to do after its application. -/
inductive RuleReturnCode where
  | immediateReturn
  | continue
  | continueWithRuleSuggestion
  | cutBranch
  | endBranchWithSolutionCandidate
  deriving DecidableEq

/-- Why `advanceSearch` returned. -/
inductive RunResult where
  | solved
  | exhausted
  | paused
  deriving DecidableEq

/-- The part of the context that the search loop and the coordinator share.
Weights and thresholds are exact; `⊤` is the weight before any solution. -/
structure Context where
  bestSolutionWeight : WithTop ℚ := ⊤
  maxSolutionSize : ℕ := 1
  a : ℚ := -1
  b : ℤ := -1
  certifiedThreshold : ℤ := -1

/-- `Context::certifiedCeiling` in exact arithmetic: `⌊a·value⌋ + b`. -/
def Context.certifiedCeiling (c : Context) (value : ℤ) : ℤ := ⌊c.a * value⌋ + c.b

/-- A larger bound has a larger product. -/
theorem Context.floor_mono {a : ℚ} (ha : 1 ≤ a) {v w : ℤ} (h : v ≤ w) : ⌊a * v⌋ ≤ ⌊a * w⌋ := by
  have hvw : (v : ℚ) ≤ w := by exact_mod_cast h
  exact Int.floor_le_floor (mul_le_mul_of_nonneg_left hvw (zero_le_one.trans ha))

/-- A larger bound certifies at least as much. -/
theorem Context.certifiedCeiling_mono {c : Context} (ha : 1 ≤ c.a) {v w : ℤ} (h : v ≤ w) :
    c.certifiedCeiling v ≤ c.certifiedCeiling w :=
  Int.add_le_add_right (Context.floor_mono ha h) _

/-- The two switches of the configuration that the loop reads. -/
structure Configuration where
  boundedDepthSearch : Bool := false
  certifiedEarlyExit : Bool := false

/-- The rules of a configuration, over the state `σ` of the instance. -/
structure RuleSystem (σ ρ : Type*) where
  /-- The first applicable rule of `activeRules`; the last rule of every list
  always applies. -/
  isApplicable : Context → σ → ρ
  apply : ρ → σ → RuleReturnCode × ρ × σ
  nextRuleSuggestion : ρ → List ρ
  unapply : ρ → σ → ρ × σ
  /-- The rule is an `AbstractBranchingRule`. -/
  isBranchingRule : ρ → Bool
  isFullyExplored : ρ → Bool
  clone : ρ → ρ
  /-- `weightFunction` of forest 0. -/
  weightFunction : σ → ℚ

/-- The values the solver reads from outside: the clock, in seconds, and the
timeout flag, each at its successive readings. -/
structure Environment where
  clock : ℕ → ℚ
  timeoutFlag : Option (ℕ → Bool) := none

/-- The fields of a `BranchingSolver`.  `appliedRules` has the most recent rule
first; `pauseDeadline` is `none` for `time_point::max()`. -/
structure Search (σ ρ : Type*) where
  inst : σ
  context : Context
  appliedRules : List ρ := []
  applyNext : List ρ := []
  solutionBranch : List ρ := []
  pauseDeadline : Option ℚ := none
  pauseDeadlinePassed : Bool := false
  clockCheckCountdown : ℕ := 0
  clockReads : ℕ := 0
  flagReads : ℕ := 0

/-- `kClockCheckStride`. -/
def kClockCheckStride : ℕ := 1024

namespace Search

variable {σ ρ : Type*} (R : RuleSystem σ ρ) (config : Configuration) (env : Environment)

/-- A reading of the clock. -/
def now (s : Search σ ρ) : ℚ × Search σ ρ :=
  (env.clock s.clockReads, { s with clockReads := s.clockReads + 1 })

/-- `timeoutFlag && timeoutFlag->load() && not solutionBranch.empty()`. -/
def timeoutReached (s : Search σ ρ) : Bool × Search σ ρ :=
  match env.timeoutFlag with
  | none => (false, s)
  | some flag =>
      (flag s.flagReads && !s.solutionBranch.isEmpty, { s with flagReads := s.flagReads + 1 })

def setPauseDeadline (deadline : ℚ) (s : Search σ ρ) : Search σ ρ :=
  { s with pauseDeadline := some deadline, pauseDeadlinePassed := false, clockCheckCountdown := 0 }

/-- `pauseReached`: the clock is read once in `kClockCheckStride` calls. -/
def pauseReached (s : Search σ ρ) : Bool × Search σ ρ :=
  if s.pauseDeadlinePassed then (true, s)
  else
    match s.pauseDeadline with
    | none => (false, s)
    | some deadline =>
        if s.clockCheckCountdown = 0 then
          let passed := !decide ((s.now env).1 < deadline)
          (passed, { (s.now env).2 with
            clockCheckCountdown := kClockCheckStride, pauseDeadlinePassed := passed })
        else (false, { s with clockCheckCountdown := s.clockCheckCountdown - 1 })

/-- `seedSolution`. -/
def seedSolution (branch : List ρ) (weight : ℚ) (s : Search σ ρ) : Search σ ρ :=
  { s with solutionBranch := branch, context := { s.context with bestSolutionWeight := weight } }

/-- Unapplies the rules of a list, its first rule first. -/
def unapplyAll : List ρ → σ → σ
  | [], st => st
  | r :: rs, st => unapplyAll rs (R.unapply r st).2

/-- `unwindAppliedRules`. -/
def unwindAppliedRules (s : Search σ ρ) : Search σ ρ :=
  { s with inst := unapplyAll R s.appliedRules s.inst, appliedRules := [], applyNext := [] }

/-- The loop of `rollBackBranch`: unapplies rules until one of them has another
branch, which is queued to be applied again. -/
def rollBackLoop : List ρ → σ → Bool × List ρ × List ρ × σ
  | [], st => (true, [], [], st)
  | r :: rs, st =>
      let u := R.unapply r st
      if R.isBranchingRule u.1 && !R.isFullyExplored u.1 then (false, rs, [u.1], u.2)
      else rollBackLoop rs u.2

/-- `rollBackBranch`; `true` when nothing is left to explore. -/
def rollBackBranch (s : Search σ ρ) : Bool × Search σ ρ :=
  let t := timeoutReached env s
  if t.1 then (true, unwindAppliedRules R t.2)
  else
    let l := rollBackLoop R t.2.appliedRules t.2.inst
    (l.1, { t.2 with appliedRules := l.2.1, applyNext := l.2.2.1, inst := l.2.2.2 })

/-- `checkSolutionCandidate`. -/
def checkSolutionCandidate (s : Search σ ρ) : Search σ ρ :=
  let candidateWeight := R.weightFunction s.inst
  if (candidateWeight : WithTop ℚ) < s.context.bestSolutionWeight then
    { s with
      context := { s.context with bestSolutionWeight := candidateWeight }
      solutionBranch := (s.appliedRules.map R.clone).reverse }
  else s

/-- Takes the first rule of the queue, or else the first applicable one. -/
def nextRule (s : Search σ ρ) : ρ × Search σ ρ :=
  match s.applyNext with
  | r :: rs => (r, { s with applyNext := rs })
  | [] => (R.isApplicable s.context s.inst, s)

/-- Applies the next rule and pushes it on the stack. -/
def applyRule (s : Search σ ρ) : RuleReturnCode × ρ × Search σ ρ :=
  let n := nextRule R s
  let a := R.apply n.1 n.2.inst
  (a.1, a.2.1, { n.2 with inst := a.2.2, appliedRules := a.2.1 :: n.2.appliedRules })

/-- The incumbent is within the certified threshold and the search may stop.  The code
compares `float`s, which is exact up to `2 ^ 24`. -/
def certified (s : Search σ ρ) : Bool :=
  config.certifiedEarlyExit && !s.solutionBranch.isEmpty &&
    decide (s.context.bestSolutionWeight ≤ ((s.context.certifiedThreshold : ℚ) : WithTop ℚ))

/-- What follows a finished search space: a deeper search, or the end. -/
def searchSpaceFinished (finished : Bool) (s : Search σ ρ) : Option RunResult × Search σ ρ :=
  if finished then
    if config.boundedDepthSearch then
      (none, { s with context := { s.context with
        maxSolutionSize := s.context.maxSolutionSize + 1 } })
    else (some .exhausted, s)
  else (none, s)

/-- The rest of an iteration after a rule was applied: the `switch` on its return
code. -/
def handleReturnCode (code : RuleReturnCode) (rule : ρ) (s : Search σ ρ) :
    Option RunResult × Search σ ρ :=
  match code with
  | .continue => (none, s)
  | .continueWithRuleSuggestion =>
      (none, { s with applyNext := s.applyNext ++ R.nextRuleSuggestion rule })
  | .endBranchWithSolutionCandidate =>
      if config.boundedDepthSearch then (some .solved, s)
      else
        let r := rollBackBranch R env (checkSolutionCandidate R s)
        searchSpaceFinished config r.1 r.2
  | .cutBranch =>
      let r := rollBackBranch R env s
      searchSpaceFinished config r.1 r.2
  | .immediateReturn => searchSpaceFinished config true s

/-- `madeProgressThisCall && pauseReached()`. -/
def pauseCheck (madeProgressThisCall : Bool) (s : Search σ ρ) : Bool × Search σ ρ :=
  if madeProgressThisCall then pauseReached env s else (false, s)

/-- **One iteration of the loop of `advanceSearch`**, with the local variable
`madeProgressThisCall`; `none` when the loop goes on. -/
def advanceIteration (madeProgressThisCall : Bool) (s : Search σ ρ) :
    Option RunResult × Search σ ρ :=
  if certified config s then (some .solved, s)
  else
    let t := timeoutReached env s
    if t.1 then (some .solved, t.2)
    else
      let p := pauseCheck env madeProgressThisCall t.2
      if p.1 then (some .paused, p.2)
      else
        let a := applyRule R p.2
        handleReturnCode R config env a.1 a.2.1 a.2.2

/-- Applies the rules of a list in order; each comes back as its application left
it. -/
def replay : List ρ → σ → List ρ × σ
  | [], st => ([], st)
  | r :: rs, st =>
      let a := R.apply r st
      let rest := replay rs a.2.2
      (a.2.1 :: rest.1, rest.2)

/-- `finalize`: unwinds the branch in progress and replays the best solution. -/
def finalize (s : Search σ ρ) : Search σ ρ :=
  if config.boundedDepthSearch then s
  else
    let u := unwindAppliedRules R s
    let r := replay R u.solutionBranch u.inst
    { u with inst := r.2, appliedRules := r.1.reverse, solutionBranch := r.1 }

/-- Unapplies the rules of a list, its first rule first; each comes back as its `unapply` left it. -/
def unapplyEach : List ρ → σ → List ρ × σ
  | [], st => ([], st)
  | r :: rs, st =>
      let u := R.unapply r st
      let rest := unapplyEach rs u.2
      (u.1 :: rest.1, rest.2)

/-- `unapplySolutionBranch`.  Whoever copied the branch before holds the same rules, so they are returned
as their `unapply` left them. -/
def unapplySolutionBranch (s : Search σ ρ) : List ρ × Search σ ρ :=
  let u := unapplyEach R s.solutionBranch.reverse s.inst
  (u.1.reverse, { s with inst := u.2, solutionBranch := [] })

/-- What the search leaves alone besides its clock: the constants of the
certification and the state of the pause check. -/
structure Frame (s t : Search σ ρ) : Prop where
  a : t.context.a = s.context.a
  b : t.context.b = s.context.b
  certifiedThreshold : t.context.certifiedThreshold = s.context.certifiedThreshold
  pauseDeadline : t.pauseDeadline = s.pauseDeadline
  pauseDeadlinePassed : t.pauseDeadlinePassed = s.pauseDeadlinePassed
  clockCheckCountdown : t.clockCheckCountdown = s.clockCheckCountdown
  clockReads : t.clockReads = s.clockReads

/-- Nothing is changed. -/
theorem Frame.refl (s : Search σ ρ) : Frame s s := ⟨rfl, rfl, rfl, rfl, rfl, rfl, rfl⟩

/-- What is left alone twice is left alone. -/
theorem Frame.trans {s t u : Search σ ρ} (h : Frame s t) (h' : Frame t u) : Frame s u :=
  ⟨h'.a.trans h.a, h'.b.trans h.b, h'.certifiedThreshold.trans h.certifiedThreshold,
    h'.pauseDeadline.trans h.pauseDeadline, h'.pauseDeadlinePassed.trans h.pauseDeadlinePassed,
    h'.clockCheckCountdown.trans h.clockCheckCountdown, h'.clockReads.trans h.clockReads⟩

/-- Reading the flag leaves the frame alone. -/
theorem frame_timeoutReached (s : Search σ ρ) : Frame s (timeoutReached env s).2 := by
  unfold timeoutReached
  cases env.timeoutFlag <;> exact ⟨rfl, rfl, rfl, rfl, rfl, rfl, rfl⟩

/-- Rolling a branch back leaves the frame alone. -/
theorem frame_rollBackBranch (s : Search σ ρ) : Frame s (rollBackBranch R env s).2 := by
  unfold rollBackBranch unwindAppliedRules
  dsimp only
  split_ifs
  all_goals exact (frame_timeoutReached env s).trans ⟨rfl, rfl, rfl, rfl, rfl, rfl, rfl⟩

/-- Applying a rule leaves the frame alone. -/
theorem frame_applyRule (s : Search σ ρ) : Frame s (applyRule R s).2.2 := by
  unfold applyRule nextRule
  cases s.applyNext <;> exact ⟨rfl, rfl, rfl, rfl, rfl, rfl, rfl⟩

/-- Recording a solution leaves the frame alone. -/
theorem frame_checkSolutionCandidate (s : Search σ ρ) : Frame s (checkSolutionCandidate R s) := by
  unfold checkSolutionCandidate
  dsimp only
  split_ifs
  · exact ⟨rfl, rfl, rfl, rfl, rfl, rfl, rfl⟩
  · exact Frame.refl s

/-- The end of the search space leaves the frame alone. -/
theorem frame_searchSpaceFinished (b : Bool) (s : Search σ ρ) :
    Frame s (searchSpaceFinished config b s).2 := by
  unfold searchSpaceFinished
  split_ifs <;> exact ⟨rfl, rfl, rfl, rfl, rfl, rfl, rfl⟩

/-- Handling a return code leaves the frame alone. -/
theorem frame_handleReturnCode (code : RuleReturnCode) (rule : ρ) (s : Search σ ρ) :
    Frame s (handleReturnCode R config env code rule s).2 := by
  cases code with
  | immediateReturn => exact frame_searchSpaceFinished config true s
  | «continue» => exact Frame.refl s
  | continueWithRuleSuggestion => exact ⟨rfl, rfl, rfl, rfl, rfl, rfl, rfl⟩
  | cutBranch =>
      exact (frame_rollBackBranch R env s).trans (frame_searchSpaceFinished config _ _)
  | endBranchWithSolutionCandidate =>
      unfold handleReturnCode
      dsimp only
      split_ifs
      · exact Frame.refl s
      · exact ((frame_checkSolutionCandidate R s).trans (frame_rollBackBranch R env _)).trans
          (frame_searchSpaceFinished config _ _)

/-- Reading the clock leaves the context alone. -/
theorem pauseReached_context (s : Search σ ρ) : (pauseReached env s).2.context = s.context := by
  unfold pauseReached
  by_cases hp : s.pauseDeadlinePassed
  · rw [if_pos hp]
  · rw [if_neg hp]
    cases s.pauseDeadline with
    | none => rfl
    | some d =>
        dsimp only
        by_cases hc : s.clockCheckCountdown = 0
        · rw [if_pos hc]; rfl
        · rw [if_neg hc]

/-- The pause check leaves the context alone. -/
theorem pauseCheck_context (madeProgress : Bool) (s : Search σ ρ) :
    (pauseCheck env madeProgress s).2.context = s.context := by
  unfold pauseCheck
  cases madeProgress
  · rfl
  · exact pauseReached_context env s

/-- **What an iteration does.**  It stops on a certified incumbent, on the
timeout flag or on the pause deadline before any rule is applied; otherwise it
changes what a rule application changes, after the pause check. -/
theorem advanceIteration_cases (madeProgress : Bool) (s : Search σ ρ) :
    (certified config s = true ∧
      advanceIteration R config env madeProgress s = (some .solved, s)) ∨
    ((timeoutReached env s).1 = true ∧
      advanceIteration R config env madeProgress s = (some .solved, (timeoutReached env s).2)) ∨
    ((pauseCheck env madeProgress (timeoutReached env s).2).1 = true ∧
      advanceIteration R config env madeProgress s =
        (some .paused, (pauseCheck env madeProgress (timeoutReached env s).2).2)) ∨
    (certified config s = false ∧ (timeoutReached env s).1 = false ∧
      (pauseCheck env madeProgress (timeoutReached env s).2).1 = false ∧
      ∃ code rule u, Frame (pauseCheck env madeProgress (timeoutReached env s).2).2 u ∧
        applyRule R (pauseCheck env madeProgress (timeoutReached env s).2).2 = (code, rule, u) ∧
        advanceIteration R config env madeProgress s =
          handleReturnCode R config env code rule u) := by
  unfold advanceIteration
  dsimp only
  by_cases hc : certified config s = true
  · exact Or.inl ⟨hc, if_pos hc⟩
  rw [if_neg hc]
  by_cases ht : (timeoutReached env s).1 = true
  · exact Or.inr (Or.inl ⟨ht, if_pos ht⟩)
  rw [if_neg ht]
  by_cases hp : (pauseCheck env madeProgress (timeoutReached env s).2).1 = true
  · exact Or.inr (Or.inr (Or.inl ⟨hp, if_pos hp⟩))
  rw [if_neg hp]
  exact Or.inr (Or.inr (Or.inr ⟨Bool.eq_false_iff.2 hc, Bool.eq_false_iff.2 ht,
    Bool.eq_false_iff.2 hp, _, _, _, frame_applyRule R _, rfl, rfl⟩))

/-- **The search never touches the constants of the certification.** -/
theorem constants_advanceIteration (madeProgress : Bool) (s : Search σ ρ) :
    let t := (advanceIteration R config env madeProgress s).2
    t.context.a = s.context.a ∧ t.context.b = s.context.b ∧
      t.context.certifiedThreshold = s.context.certifiedThreshold := by
  have ht := frame_timeoutReached env s
  have hp := pauseCheck_context env madeProgress (timeoutReached env s).2
  rcases advanceIteration_cases R config env madeProgress s with
    ⟨-, h⟩ | ⟨-, h⟩ | ⟨-, h⟩ | ⟨-, -, -, code, rule, u, hu, -, h⟩ <;> rw [h]
  · exact ⟨rfl, rfl, rfl⟩
  · exact ⟨ht.a, ht.b, ht.certifiedThreshold⟩
  · dsimp only
    rw [hp]
    exact ⟨ht.a, ht.b, ht.certifiedThreshold⟩
  · have hc := hu.trans (frame_handleReturnCode R config env code rule u)
    dsimp only
    rw [hc.a, hc.b, hc.certifiedThreshold, hp]
    exact ⟨ht.a, ht.b, ht.certifiedThreshold⟩

/-- In the unbounded mode a rule application ends the search only by exhausting
it. -/
theorem handleReturnCode_result (hb : config.boundedDepthSearch = false) (code : RuleReturnCode)
    (rule : ρ) (s : Search σ ρ) :
    (handleReturnCode R config env code rule s).1 = none ∨
      (handleReturnCode R config env code rule s).1 = some .exhausted := by
  have hfin : ∀ b (u : Search σ ρ), (searchSpaceFinished config b u).1 = none ∨
      (searchSpaceFinished config b u).1 = some .exhausted := by
    intro b u
    unfold searchSpaceFinished
    cases b <;> simp [hb]
  cases code with
  | immediateReturn => exact hfin _ _
  | «continue» => exact Or.inl rfl
  | continueWithRuleSuggestion => exact Or.inl rfl
  | cutBranch => exact hfin _ _
  | endBranchWithSolutionCandidate =>
      unfold handleReturnCode
      simp only [hb, Bool.false_eq_true, if_false]
      exact hfin _ _

/-- **Without a timeout flag `Solved` means certified.** -/
theorem certified_of_solved (hb : config.boundedDepthSearch = false)
    (ht : env.timeoutFlag = none) {madeProgress : Bool} {s : Search σ ρ}
    (h : (advanceIteration R config env madeProgress s).1 = some .solved) :
    certified config s = true ∧ (advanceIteration R config env madeProgress s).2 = s := by
  rcases advanceIteration_cases R config env madeProgress s with
    ⟨hc, hi⟩ | ⟨hf, hi⟩ | ⟨-, hi⟩ | ⟨-, -, -, code, rule, u, -, -, hi⟩ <;> rw [hi] at h ⊢
  · exact ⟨hc, rfl⟩
  · simp [timeoutReached, ht] at hf
  · cases h
  · rcases handleReturnCode_result R config env hb code rule u with hr | hr <;> rw [hr] at h <;>
      cases h

/-- How long the pause check can still say no, when the clock has reached the
deadline by reading `N`. -/
def pauseBudget (N : ℕ) (s : Search σ ρ) : ℕ :=
  (N - s.clockReads) * (kClockCheckStride + 1) + s.clockCheckCountdown

/-- **A pause check that says no uses up some of its budget.** -/
theorem pauseBudget_lt {N : ℕ} {s : Search σ ρ} {deadline : ℚ}
    (hN : ∀ n, N ≤ n → deadline ≤ env.clock n) (hs : s.pauseDeadline = some deadline)
    (hno : (pauseReached env s).1 = false) :
    (pauseReached env s).2.pauseDeadline = some deadline ∧
      s.clockReads ≤ (pauseReached env s).2.clockReads ∧
      pauseBudget N (pauseReached env s).2 < pauseBudget N s := by
  unfold pauseReached at hno ⊢
  by_cases hp : s.pauseDeadlinePassed
  · rw [if_pos hp] at hno; cases hno
  · rw [if_neg hp, hs] at hno ⊢
    dsimp only at hno ⊢
    by_cases hc : s.clockCheckCountdown = 0
    · rw [if_pos hc] at hno ⊢
      rw [Bool.not_eq_false'] at hno
      have hlt : env.clock s.clockReads < deadline := of_decide_eq_true hno
      have hr : s.clockReads < N := by
        by_contra hr
        exact absurd hlt (not_lt.2 (hN _ (not_lt.1 hr)))
      refine ⟨hs, Nat.le_succ _, ?_⟩
      obtain ⟨k, hk⟩ := Nat.exists_eq_add_of_lt hr
      have h₁ : N - s.clockReads = k + 1 := by omega
      have h₂ : N - (s.clockReads + 1) = k := by omega
      simp only [pauseBudget, now, h₁, h₂, hc, Nat.add_mul]
      omega
    · rw [if_neg hc]
      refine ⟨rfl, le_rfl, ?_⟩
      simp only [pauseBudget]
      omega

/-- The pause check reads the clock at most once more. -/
theorem clockReads_pauseCheck (madeProgress : Bool) (s : Search σ ρ) :
    s.clockReads ≤ (pauseCheck env madeProgress s).2.clockReads := by
  unfold pauseCheck pauseReached
  cases madeProgress
  · exact le_rfl
  · by_cases hp : s.pauseDeadlinePassed
    · simp [hp]
    · cases hd : s.pauseDeadline with
      | none => simp [hp]
      | some d => by_cases hc : s.clockCheckCountdown = 0 <;> simp [hp, hc, now]

/-- `finalize` rewrites the instance and the two rule lists only. -/
theorem finalize_context (s : Search σ ρ) : (finalize R config s).context = s.context := by
  unfold finalize
  split_ifs <;> rfl

end Search

end Maf
