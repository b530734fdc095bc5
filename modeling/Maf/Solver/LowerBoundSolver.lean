/-
# The coordinator of the lower-bound track

`src/Solver/LowerBoundSolver.cpp` with `src/Solver/LowerBoundCoordinatorConfig.hpp`
and the interface `src/Solver/IIncrementalLowerBound.hpp`.  The coordinator
walks a schedule of slices, hands each to the branching search or to the
incremental lower-bound solver, and spends what is left of the budget on
branching.  It answers `true` when the search ends or when the incumbent is
within the certified threshold `⌊a·L⌋ + b` of a proven lower bound `L`.

The function `solve` is a small machine (`Coordinator.step`): one step is one
turn of the schedule loop, of the budget loop, or of the loop of `advanceSearch`
inside a branch slice.  So the results are about every moment of a run,
whatever the clock shows and wherever a slice is paused.

The ceiling that turns a bound into a threshold is a parameter: the exact
`Context.certifiedCeiling`, or the one that the code computes.
-/

import Maf.AgreementForest
import Maf.Solver.BranchingSolver

namespace Maf

/-- Which solver runs during a slice. -/
inductive CoordinatorActor where
  | branch
  | sat
  deriving DecidableEq

/-- A slice of the schedule. -/
structure CoordinatorSlice where
  actor : CoordinatorActor
  seconds : ℚ

/-- The schedule and the budget of the coordinator. -/
structure LowerBoundCoordinatorConfig where
  schedule : List CoordinatorSlice
  totalBudgetSeconds : ℚ := 570
  safetyMarginSeconds : ℚ := 15

/-- An incremental lower-bound solver with state `τ`. -/
structure IIncrementalLowerBound (τ : Type*) where
  setTimeOut : ℚ → τ → τ
  solve : τ → τ
  getCurrentLowerBound : τ → ℤ

/-- What is left to do: the rest of the schedule and then the remaining budget, or
only the latter. -/
inductive Agenda where
  | schedule (slices : List CoordinatorSlice)
  | budget

/-- Where `LowerBoundSolver::solve` stands. -/
inductive Mode where
  /-- At the head of the schedule loop or of the loop that spends the budget. -/
  | loop (agenda : Agenda)
  /-- In the loop of `advanceSearch`; a pause leads back to `agenda`. -/
  | advancing (madeProgressThisCall : Bool) (agenda : Agenda)
  /-- About to call `finalize` and return `true`. -/
  | finalizing
  | returned (result : Bool)

/-- The coordinator with the two solvers it drives. -/
structure Coordinator (σ ρ τ : Type*) where
  search : Search σ ρ
  sat : τ
  currentL : ℤ
  hardStop : ℚ
  mode : Mode

namespace Coordinator

variable {σ ρ τ : Type*} (R : RuleSystem σ ρ) (config : Configuration) (env : Environment)
  (ceiling : Context → ℤ → ℤ) (lb : IIncrementalLowerBound τ)

/-- `certifiedThreshold` of the shared context. -/
def certifiedThreshold (c : Coordinator σ ρ τ) : ℤ := c.search.context.certifiedThreshold

/-- `incumbentCertifies`.  The code compares `float`s: its weight is a whole number and
the threshold is cast, which is exact up to `2 ^ 24`. -/
def incumbentCertifies (c : Coordinator σ ρ τ) : Bool :=
  decide (c.search.context.bestSolutionWeight ≠ ⊤) &&
    decide (c.search.context.bestSolutionWeight ≤ ((c.certifiedThreshold : ℚ) : WithTop ℚ))

/-- `adoptLowerBound`, without its return value `incumbentCertifies`. -/
def adoptLowerBound (candidate : ℤ) (c : Coordinator σ ρ τ) : Coordinator σ ρ τ :=
  if c.currentL < candidate then
    { c with
      currentL := candidate
      search := { c.search with context := { c.search.context with
        certifiedThreshold := ceiling c.search.context candidate } } }
  else c

/-- `remaining`: the seconds up to the hard stop. -/
def remaining (c : Coordinator σ ρ τ) : ℚ × Coordinator σ ρ τ :=
  (c.hardStop - (c.search.now env).1, { c with search := (c.search.now env).2 })

/-- `sliceEnd`: two readings of the clock, one for `remaining` and one for the
start of the slice. -/
def sliceEnd (seconds : ℚ) (c : Coordinator σ ρ τ) : ℚ × Coordinator σ ρ τ :=
  let r := c.remaining env
  let n := r.2.search.now env
  (n.1 + min seconds (max 0 r.1), { r.2 with search := n.2 })

/-- The start of `runBranchSlice`: arms the pause deadline and enters
`advanceSearch`. -/
def runBranchSlice (seconds : ℚ) (agenda : Agenda) (c : Coordinator σ ρ τ) : Coordinator σ ρ τ :=
  let e := c.sliceEnd env seconds
  { e.2 with search := e.2.search.setPauseDeadline e.1, mode := .advancing false agenda }

/-- `runSatSlice`. -/
def runSatSlice (seconds : ℚ) (agenda : Agenda) (c : Coordinator σ ρ τ) : Coordinator σ ρ τ :=
  let r := c.remaining env
  let sat := lb.solve (lb.setTimeOut (max 0 (min seconds r.1)) r.2.sat)
  let c := adoptLowerBound ceiling (lb.getCurrentLowerBound sat) { r.2 with sat := sat }
  { c with mode := if c.incumbentCertifies then .finalizing else .loop agenda }

/-- What an iteration of `advanceSearch` leads to. -/
def afterIteration (agenda : Agenda) : Option RunResult → Mode
  | none => .advancing true agenda
  | some .paused => .loop agenda
  | some .solved => .finalizing
  | some .exhausted => .finalizing

/-- One turn of the schedule loop. -/
def scheduleStep (slice : CoordinatorSlice) (slices : List CoordinatorSlice)
    (c : Coordinator σ ρ τ) : Coordinator σ ρ τ :=
  let r := c.remaining env
  if r.1 ≤ 0 then { r.2 with mode := .loop .budget }
  else
    match slice.actor with
    | .branch => runBranchSlice env slice.seconds (.schedule slices) r.2
    | .sat => runSatSlice env ceiling lb slice.seconds (.schedule slices) r.2

/-- One turn of the loop that spends the budget, and the final verdict. -/
def budgetStep (c : Coordinator σ ρ τ) : Coordinator σ ρ τ :=
  let r := c.remaining env
  if 0 < r.1 then
    let r' := r.2.remaining env
    runBranchSlice env r'.1 .budget r'.2
  else { r.2 with mode := if r.2.incumbentCertifies then .finalizing else .returned false }

/-- **One step of `LowerBoundSolver::solve`.** -/
def step (c : Coordinator σ ρ τ) : Coordinator σ ρ τ :=
  match c.mode with
  | .loop (.schedule []) => { c with mode := .loop .budget }
  | .loop (.schedule (slice :: slices)) => scheduleStep env ceiling lb slice slices c
  | .loop .budget => budgetStep env c
  | .advancing madeProgressThisCall agenda =>
      let i := c.search.advanceIteration R config env madeProgressThisCall
      { c with search := i.2, mode := afterIteration agenda i.1 }
  | .finalizing => { c with search := c.search.finalize R config, mode := .returned true }
  | .returned _ => c

/-- The state in which `solve` enters the schedule loop. -/
def start (cfg : LowerBoundCoordinatorConfig) (initialLowerBound : ℤ) (search : Search σ ρ)
    (sat : τ) : Coordinator σ ρ τ :=
  let n := search.now env
  adoptLowerBound ceiling (lb.getCurrentLowerBound sat)
    { search := n.2
      sat := sat
      currentL := initialLowerBound
      hardStop := n.1 + (cfg.totalBudgetSeconds - cfg.safetyMarginSeconds)
      mode := .loop (.schedule cfg.schedule) }

/-- The clock is read `k` times. -/
def tick (k : ℕ) (c : Coordinator σ ρ τ) : Coordinator σ ρ τ :=
  { c with search := { c.search with clockReads := c.search.clockReads + k } }

/-- The steps of the coordinator, each with the guard it is taken under. -/
inductive Turn (c : Coordinator σ ρ τ) : Coordinator σ ρ τ → Prop where
  | scheduleDone (hm : c.mode = .loop (.schedule [])) : Turn c { c with mode := .loop .budget }
  | timeUp {slice slices} (hm : c.mode = .loop (.schedule (slice :: slices))) :
      Turn c { c.tick 1 with mode := .loop .budget }
  | branch {slice slices} (hm : c.mode = .loop (.schedule (slice :: slices))) :
      Turn c (runBranchSlice env slice.seconds (.schedule slices) (c.tick 1))
  | sat {slice slices} (hm : c.mode = .loop (.schedule (slice :: slices))) :
      Turn c (runSatSlice env ceiling lb slice.seconds (.schedule slices) (c.tick 1))
  | budget {seconds} (hm : c.mode = .loop .budget)
      (ht : env.clock c.search.clockReads < c.hardStop) :
      Turn c (runBranchSlice env seconds .budget (c.tick 2))
  | accept (hm : c.mode = .loop .budget) (hc : c.incumbentCertifies = true) :
      Turn c { c.tick 1 with mode := .finalizing }
  | reject (hm : c.mode = .loop .budget) : Turn c { c.tick 1 with mode := .returned false }
  | advance {madeProgress agenda} (hm : c.mode = .advancing madeProgress agenda) :
      Turn c { c with
        search := (c.search.advanceIteration R config env madeProgress).2
        mode := afterIteration agenda (c.search.advanceIteration R config env madeProgress).1 }
  | finalize (hm : c.mode = .finalizing) :
      Turn c { c with search := c.search.finalize R config, mode := .returned true }
  | stay {result} (hm : c.mode = .returned result) : Turn c c

/-- **Every step is one of the turns.** -/
theorem turn_step (c : Coordinator σ ρ τ) : Turn R config env ceiling lb c (c.step R config env ceiling lb) := by
  unfold step
  split
  · next hm => exact .scheduleDone hm
  · next slice slices hm =>
    unfold scheduleStep
    dsimp only
    split_ifs
    · exact .timeUp hm
    · split
      · exact .branch hm
      · exact .sat hm
  · next hm =>
    unfold budgetStep
    dsimp only
    split_ifs with ht hc
    · exact .budget hm (sub_pos.1 ht)
    · exact .accept hm hc
    · exact .reject hm
  · next hm => exact .advance hm
  · next hm => exact .finalize hm
  · next hm => exact .stay hm

/-! What a step does to the bound and to the threshold. -/

/-- The bound and the constants of the certification are the same. -/
structure SameBound (c d : Coordinator σ ρ τ) : Prop where
  currentL : d.currentL = c.currentL
  a : d.search.context.a = c.search.context.a
  b : d.search.context.b = c.search.context.b
  certifiedThreshold : d.certifiedThreshold = c.certifiedThreshold

/-- The bound rises to `candidate` and the threshold with it. -/
structure Raised (candidate : ℤ) (c d : Coordinator σ ρ τ) : Prop where
  currentL : d.currentL = candidate
  a : d.search.context.a = c.search.context.a
  b : d.search.context.b = c.search.context.b
  certifiedThreshold : d.certifiedThreshold = ceiling c.search.context candidate
  lt : c.currentL < candidate

/-- A candidate changes nothing or raises the threshold. -/
theorem adoptLowerBound_cases (candidate : ℤ) (c : Coordinator σ ρ τ) :
    adoptLowerBound ceiling candidate c = c ∨ Raised ceiling candidate c (adoptLowerBound ceiling candidate c) := by
  unfold adoptLowerBound
  by_cases h : c.currentL < candidate
  · rw [if_pos h]
    exact Or.inr ⟨rfl, rfl, rfl, rfl, h⟩
  · rw [if_neg h]
    exact Or.inl rfl

/-- A candidate leaves the lower-bound solver alone. -/
@[simp] theorem adoptLowerBound_sat (candidate : ℤ) (c : Coordinator σ ρ τ) :
    (adoptLowerBound ceiling candidate c).sat = c.sat := by
  unfold adoptLowerBound
  split_ifs <;> rfl

/-- A Sat slice changes nothing or raises the threshold to what it reports. -/
theorem runSatSlice_bound (seconds : ℚ) (agenda : Agenda) (c : Coordinator σ ρ τ) :
    SameBound c (runSatSlice env ceiling lb seconds agenda c) ∨
      Raised ceiling (lb.getCurrentLowerBound (runSatSlice env ceiling lb seconds agenda c).sat) c
        (runSatSlice env ceiling lb seconds agenda c) := by
  have hsat : (runSatSlice env ceiling lb seconds agenda c).sat =
      lb.solve (lb.setTimeOut (max 0 (min seconds (c.remaining env).1)) c.sat) := by
    simp [runSatSlice, remaining]
  rw [hsat]
  rcases adoptLowerBound_cases ceiling
      (lb.getCurrentLowerBound
        (lb.solve (lb.setTimeOut (max 0 (min seconds (c.remaining env).1)) c.sat)))
      { (c.remaining env).2 with
        sat := lb.solve (lb.setTimeOut (max 0 (min seconds (c.remaining env).1)) c.sat) } with
    h | h
  · have hcontext := congrArg (·.search.context) h
    exact Or.inl ⟨congrArg (·.currentL) h, congrArg (·.a) hcontext, congrArg (·.b) hcontext,
      congrArg (·.certifiedThreshold) hcontext⟩
  · exact Or.inr ⟨h.currentL, h.a, h.b, h.certifiedThreshold, h.lt⟩

/-- **Only a report of the lower-bound solver moves the bound**, and it raises
it. -/
theorem Turn.bound {c d : Coordinator σ ρ τ} (h : Turn R config env ceiling lb c d) :
    SameBound c d ∨ Raised ceiling (lb.getCurrentLowerBound d.sat) c d := by
  cases h with
  | scheduleDone | timeUp | branch | budget | accept | reject | stay =>
      exact Or.inl ⟨rfl, rfl, rfl, rfl⟩
  | sat hm =>
      rcases runSatSlice_bound env ceiling lb _ _ (c.tick 1) with h | h
      · exact Or.inl ⟨h.currentL, h.a, h.b, h.certifiedThreshold⟩
      · exact Or.inr ⟨h.currentL, h.a, h.b, h.certifiedThreshold, h.lt⟩
  | @advance p _ hm =>
      have hf := Search.constants_advanceIteration R config env p c.search
      exact Or.inl ⟨rfl, hf.1, hf.2.1, hf.2.2⟩
  | finalize hm =>
      have hf := Search.finalize_context R config c.search
      exact Or.inl ⟨rfl, congrArg (·.a) hf, congrArg (·.b) hf, congrArg (·.certifiedThreshold) hf⟩

/-- `advanceSearch` returns `Exhausted` in this step. -/
def Exhausts (c : Coordinator σ ρ τ) : Prop :=
  ∃ madeProgress agenda, c.mode = .advancing madeProgress agenda ∧
    (c.search.advanceIteration R config env madeProgress).1 = some .exhausted

/-- The weight of the incumbent is within the threshold. -/
def Within (threshold : ℤ) (c : Coordinator σ ρ τ) : Prop :=
  c.search.context.bestSolutionWeight ≤ ((threshold : ℚ) : WithTop ℚ)

/-- An incumbent that certifies is within the threshold. -/
theorem within_of_incumbentCertifies {c : Coordinator σ ρ τ} (h : c.incumbentCertifies = true) :
    Within c.certifiedThreshold c := by
  unfold incumbentCertifies at h
  rw [Bool.and_eq_true, decide_eq_true_iff, decide_eq_true_iff] at h
  exact h.2

/-- **The coordinator finalizes only an exhausted search or an incumbent within
the threshold.** -/
theorem Turn.finalizing (hb : config.boundedDepthSearch = false) (hf : env.timeoutFlag = none)
    {c d : Coordinator σ ρ τ} (h : Turn R config env ceiling lb c d) (hd : d.mode = .finalizing) :
    Exhausts R config env c ∨ Within d.certifiedThreshold d := by
  cases h with
  | scheduleDone | timeUp | branch | budget | reject | finalize => cases hd
  | stay hm => rw [hm] at hd; cases hd
  | accept hm hc => exact Or.inr (within_of_incumbentCertifies hc)
  | sat hm =>
      unfold runSatSlice at hd ⊢
      dsimp only at hd ⊢
      split_ifs at hd with hc
      exact Or.inr (within_of_incumbentCertifies hc)
  | @advance p agenda hm =>
      dsimp only at hd
      cases hi : (c.search.advanceIteration R config env p).1 with
      | none => rw [hi] at hd; cases hd
      | some r =>
          cases r with
          | paused => rw [hi] at hd; cases hd
          | exhausted => exact Or.inl ⟨p, agenda, hm, hi⟩
          | solved =>
              obtain ⟨hc, hsame⟩ := Search.certified_of_solved R config env hb hf hi
              unfold Search.certified at hc
              rw [Bool.and_eq_true, decide_eq_true_iff] at hc
              refine Or.inr ?_
              unfold Within certifiedThreshold
              dsimp only
              rw [hsame]
              exact hc.2

/-- `solve` returns `true` only through `finalize`. -/
theorem Turn.returned_true {c d : Coordinator σ ρ τ} (h : Turn R config env ceiling lb c d)
    (hd : d.mode = .returned true) :
    d = c ∨ c.mode = .finalizing ∧ d.search = c.search.finalize R config := by
  cases h with
  | scheduleDone | timeUp | branch | budget | reject | accept => cases hd
  | stay hm => exact Or.inl rfl
  | finalize hm => exact Or.inr ⟨hm, rfl⟩
  | sat hm =>
      unfold runSatSlice at hd
      dsimp only at hd
      split_ifs at hd
  | @advance p agenda hm =>
      dsimp only at hd
      cases hi : (c.search.advanceIteration R config env p).1 with
      | none => rw [hi] at hd; cases hd
      | some r => cases r <;> rw [hi] at hd <;> cases hd

/-! With a steady clock `solve` returns. -/

/-- `solve` returns from this state. -/
def Returns (c : Coordinator σ ρ τ) : Prop :=
  ∃ n result, ((step R config env ceiling lb)^[n] c).mode = .returned result

/-- What returns after one more turn returns. -/
theorem returns_of_step {c : Coordinator σ ρ τ}
    (h : Returns R config env ceiling lb (c.step R config env ceiling lb)) : Returns R config env ceiling lb c := by
  obtain ⟨n, result, hn⟩ := h
  exact ⟨n + 1, result, by rwa [Function.iterate_succ_apply]⟩

/-- The last turn returns. -/
theorem returns_of_finalizing {c : Coordinator σ ρ τ} (h : c.mode = .finalizing) :
    Returns R config env ceiling lb c :=
  ⟨1, true, by simp only [Function.iterate_one, step, h]⟩

/-- **A branch slice ends.**  Its pause check reads the clock again and again
until the deadline has passed. -/
theorem returns_of_advancing {N : ℕ} {deadline : ℚ} (hN : ∀ n, N ≤ n → deadline ≤ env.clock n)
    {agenda : Agenda} (c : Coordinator σ ρ τ)
    (hnext : ∀ d : Coordinator σ ρ τ, d.mode = .loop agenda → d.hardStop = c.hardStop →
      c.search.clockReads ≤ d.search.clockReads → Returns R config env ceiling lb d)
    {madeProgress : Bool} (hm : c.mode = .advancing madeProgress agenda)
    (hd : c.search.pauseDeadline = some deadline) : Returns R config env ceiling lb c := by
  induction hk : Search.pauseBudget N c.search + (if madeProgress then 0 else 1)
    using Nat.strong_induction_on generalizing c madeProgress with
  | _ k ih =>
  subst hk
  apply returns_of_step
  have hstep : c.step R config env ceiling lb = { c with
      search := (c.search.advanceIteration R config env madeProgress).2
      mode := afterIteration agenda (c.search.advanceIteration R config env madeProgress).1 } := by
    simp only [step, hm]
  have ht := Search.frame_timeoutReached env c.search
  rw [hstep]
  rcases Search.advanceIteration_cases R config env madeProgress c.search with
    ⟨-, h⟩ | ⟨-, h⟩ | ⟨hp, h⟩ | ⟨-, -, hp, code, rule, u, hu, -, h⟩ <;> rw [h]
  · exact returns_of_finalizing R config env ceiling lb rfl
  · exact returns_of_finalizing R config env ceiling lb rfl
  · refine hnext _ rfl rfl ?_
    exact ht.clockReads.symm.le.trans (Search.clockReads_pauseCheck env madeProgress _)
  · have hf := hu.trans (Search.frame_handleReturnCode R config env code rule u)
    have hreads : c.search.clockReads ≤
        (Search.handleReturnCode R config env code rule u).2.clockReads := by
      rw [hf.clockReads]
      exact ht.clockReads.symm.le.trans (Search.clockReads_pauseCheck env madeProgress _)
    have hbudget : ∀ s t : Search σ ρ, Search.Frame s t →
        Search.pauseBudget N t = Search.pauseBudget N s := by
      intro s t hst
      rw [Search.pauseBudget, Search.pauseBudget, hst.clockReads, hst.clockCheckCountdown]
    -- the pause check said no, so it used up some of its budget or was not made yet
    have hless : (Search.handleReturnCode R config env code rule u).2.pauseDeadline =
          some deadline ∧
        Search.pauseBudget N (Search.handleReturnCode R config env code rule u).2 <
          Search.pauseBudget N c.search + (if madeProgress then 0 else 1) := by
      rw [hf.pauseDeadline, hbudget _ _ hf, ← hbudget _ _ ht]
      cases madeProgress with
      | false => exact ⟨ht.pauseDeadline.trans hd, Nat.lt_succ_self _⟩
      | true =>
          obtain ⟨h₁, -, h₂⟩ := Search.pauseBudget_lt env hN (ht.pauseDeadline.trans hd) hp
          exact ⟨h₁, by simpa only [Search.pauseCheck, if_true, Nat.add_zero] using h₂⟩
    cases hr : (Search.handleReturnCode R config env code rule u).1 with
    | none =>
        refine ih _ hless.2 _ (fun d hdm hdh hdr => hnext d hdm hdh (hreads.trans hdr))
          rfl hless.1 (by simp)
    | some r =>
        cases r with
        | paused => exact hnext _ rfl rfl hreads
        | solved => exact returns_of_finalizing R config env ceiling lb rfl
        | exhausted => exact returns_of_finalizing R config env ceiling lb rfl

variable {env}

/-- The budget loop ends when the clock has passed the hard stop. -/
theorem returns_of_budget (hmono : Monotone env.clock) (hunb : ∀ T, ∃ n, T ≤ env.clock n)
    (c : Coordinator σ ρ τ) (hm : c.mode = .loop .budget) : Returns R config env ceiling lb c := by
  obtain ⟨N, hN⟩ := hunb c.hardStop
  induction hk : N - c.search.clockReads using Nat.strong_induction_on generalizing c with
  | _ k ih =>
  subst hk
  apply returns_of_step
  have hstep : c.step R config env ceiling lb = budgetStep env c := by simp only [step, hm]
  rw [hstep]
  unfold budgetStep
  dsimp only
  by_cases hr : 0 < (c.remaining env).1
  · rw [if_pos hr]
    have hlt : env.clock c.search.clockReads < c.hardStop := sub_pos.1 hr
    have hreads : c.search.clockReads < N := by
      by_contra h
      exact absurd hlt (not_lt.2 (hN.trans (hmono (not_lt.1 h))))
    obtain ⟨M, hM⟩ := hunb (((c.remaining env).2.remaining env).2.sliceEnd env
      ((c.remaining env).2.remaining env).1).1
    refine returns_of_advancing R config env ceiling lb (fun n hn => hM.trans (hmono hn)) _ ?_ rfl rfl
    intro d hdm hdh hdr
    have hle : c.search.clockReads + 1 ≤ d.search.clockReads := by
      refine le_trans ?_ hdr
      simp [runBranchSlice, sliceEnd, remaining, Search.now, Search.setPauseDeadline]
    exact ih (N - d.search.clockReads) (by omega) d hdm (hdh ▸ hN) rfl
  · rw [if_neg hr]
    cases hc : (c.remaining env).2.incumbentCertifies with
    | true => exact returns_of_finalizing R config env ceiling lb (by simp)
    | false => exact ⟨0, false, by simp⟩

/-- Every slice of the schedule ends. -/
theorem returns_of_loop (hmono : Monotone env.clock) (hunb : ∀ T, ∃ n, T ≤ env.clock n)
    (agenda : Agenda) (c : Coordinator σ ρ τ) (hm : c.mode = .loop agenda) :
    Returns R config env ceiling lb c := by
  cases agenda with
  | budget => exact returns_of_budget R config ceiling lb hmono hunb c hm
  | schedule slices =>
      induction slices generalizing c with
      | nil =>
          apply returns_of_step
          exact returns_of_budget R config ceiling lb hmono hunb _ (by simp only [step, hm])
      | cons slice slices ih =>
          apply returns_of_step
          have hstep : c.step R config env ceiling lb = scheduleStep env ceiling lb slice slices c := by
            simp only [step, hm]
          rw [hstep]
          unfold scheduleStep
          dsimp only
          by_cases hr : (c.remaining env).1 ≤ 0
          · rw [if_pos hr]
            exact returns_of_budget R config ceiling lb hmono hunb _ rfl
          · rw [if_neg hr]
            cases slice.actor with
            | branch =>
                obtain ⟨M, hM⟩ := hunb ((c.remaining env).2.sliceEnd env slice.seconds).1
                exact returns_of_advancing R config env ceiling lb (fun n hn => hM.trans (hmono hn)) _
                  (fun d hdm _ _ => ih d hdm) rfl rfl
            | sat =>
                dsimp only
                unfold runSatSlice
                dsimp only
                generalize adoptLowerBound _ _ _ = d
                cases d.incumbentCertifies with
                | true => exact returns_of_finalizing R config env ceiling lb (by simp)
                | false => exact ih _ (by simp)

variable (env) (I : Instance) (forest0 : σ → Forest)

/-- The state of the coordinator `n` steps after `c₀`. -/
def run (c₀ : Coordinator σ ρ τ) (n : ℕ) : Coordinator σ ρ τ := (step R config env ceiling lb)^[n] c₀

/-- The run starts with the first state. -/
@[simp] theorem run_zero (c₀ : Coordinator σ ρ τ) : run R config env ceiling lb c₀ 0 = c₀ := rfl

/-- Each state of the run is one turn after the one before. -/
theorem turn_run (c₀ : Coordinator σ ρ τ) (n : ℕ) :
    Turn R config env ceiling lb (run R config env ceiling lb c₀ n) (run R config env ceiling lb c₀ (n + 1)) := by
  rw [run, run, Function.iterate_succ_apply']
  exact turn_step R config env ceiling lb _

/-- The incumbent's weight is the size of the agreement forest that `finalize`
makes of `solutionBranch`, and infinite before there is one. -/
structure Stored (s : Search σ ρ) : Prop where
  empty : s.solutionBranch = [] → s.context.bestSolutionWeight = ⊤
  agreement : s.solutionBranch ≠ [] →
    AgreementForest I (forest0 (s.finalize R config).inst).blocks
  weight : s.solutionBranch ≠ [] →
    s.context.bestSolutionWeight = (((forest0 (s.finalize R config).inst).length : ℚ) : WithTop ℚ)

/-- What the coordinator is promised in a run: every bound it is told is at most
`k*`, the stored incumbent is what its weight says, and the search exhausts only
with an optimal incumbent. -/
structure Promised (c₀ : Coordinator σ ρ τ) : Prop where
  reported : ∀ n, lb.getCurrentLowerBound (run R config env ceiling lb c₀ n).sat ≤ kStar I
  stored : ∀ n, (run R config env ceiling lb c₀ n).mode ≠ .returned true →
    Stored R config I forest0 (run R config env ceiling lb c₀ n).search
  exhausted : ∀ n, Exhausts R config env (run R config env ceiling lb c₀ n) →
    (run R config env ceiling lb c₀ (n + 1)).search.context.bestSolutionWeight =
      ((kStar I : ℚ) : WithTop ℚ)

/-- What is needed of the ceiling: it depends on the two constants only, a larger
bound certifies at least as much, and every bound certifies at least itself. -/
structure IsCeiling : Prop where
  congr : ∀ {c d : Context}, c.a = d.a → c.b = d.b → ceiling c = ceiling d
  mono : ∀ {c : Context}, 1 ≤ c.a → ∀ {v w : ℤ}, v ≤ w → ceiling c v ≤ ceiling c w
  le : ∀ {c : Context}, 1 ≤ c.a → 0 ≤ c.b → ∀ k : ℕ, (k : ℤ) ≤ ceiling c k

/-- In exact arithmetic it is one. -/
theorem isCeiling_certifiedCeiling : IsCeiling Context.certifiedCeiling where
  congr ha hb := by
    funext v
    rw [Context.certifiedCeiling, Context.certifiedCeiling, ha, hb]
  mono ha := fun h => Context.certifiedCeiling_mono ha h
  le := by
    intro c ha hb k
    have hfloor : (k : ℤ) ≤ ⌊c.a * (k : ℤ)⌋ := by
      refine Int.le_floor.2 ?_
      have hnn : (0 : ℚ) ≤ k := Nat.cast_nonneg _
      push_cast
      nlinarith
    rw [Context.certifiedCeiling]
    omega

/-- The bound is a lower bound for `k*` and the threshold is the one it
certifies, with the constants of the context `κ`. -/
structure Sound (κ : Context) (c : Coordinator σ ρ τ) : Prop where
  a_eq : c.search.context.a = κ.a
  b_eq : c.search.context.b = κ.b
  threshold : c.certifiedThreshold = ceiling κ c.currentL
  le_kStar : c.currentL ≤ kStar I

variable {I} {ceiling} in
/-- **A step keeps the bound sound and lowers neither bound nor threshold.** -/
theorem Sound.turn (hceil : IsCeiling ceiling) {κ : Context} (ha : 1 ≤ κ.a) {c d : Coordinator σ ρ τ}
    (hc : Sound ceiling I κ c) (ht : Turn R config env ceiling lb c d) (hd : lb.getCurrentLowerBound d.sat ≤ kStar I) :
    Sound ceiling I κ d ∧ c.currentL ≤ d.currentL ∧ c.certifiedThreshold ≤ d.certifiedThreshold := by
  rcases ht.bound with h | h
  · refine ⟨⟨h.a.trans hc.a_eq, h.b.trans hc.b_eq, ?_, ?_⟩, h.currentL.ge,
      h.certifiedThreshold.ge⟩
    · rw [h.certifiedThreshold, hc.threshold, h.currentL]
    · rw [h.currentL]; exact hc.le_kStar
  · have hthr : d.certifiedThreshold = ceiling κ d.currentL := by
      rw [h.certifiedThreshold, hceil.congr hc.a_eq hc.b_eq, h.currentL]
    have hle : c.currentL ≤ d.currentL := h.currentL ▸ h.lt.le
    refine ⟨⟨h.a.trans hc.a_eq, h.b.trans hc.b_eq, hthr, h.currentL ▸ hd⟩, hle, ?_⟩
    rw [hc.threshold, hthr]
    exact hceil.mono ha hle

/-- The bound is sound all along a run. -/
theorem sound_run (hceil : IsCeiling ceiling) {κ : Context} (ha : 1 ≤ κ.a) {c₀ : Coordinator σ ρ τ}
    (h₀ : Sound ceiling I κ c₀)
    (hr : ∀ n, lb.getCurrentLowerBound (run R config env ceiling lb c₀ n).sat ≤ kStar I) (n : ℕ) :
    Sound ceiling I κ (run R config env ceiling lb c₀ n) := by
  induction n with
  | zero => exact h₀
  | succ n ih => exact (ih.turn R config env lb hceil ha (turn_run ..) (hr _)).1

/-- **Neither the bound nor the threshold ever decreases.** -/
theorem run_mono (hceil : IsCeiling ceiling) {κ : Context} (ha : 1 ≤ κ.a) {c₀ : Coordinator σ ρ τ}
    (h₀ : Sound ceiling I κ c₀) (hp : Promised R config env ceiling lb I forest0 c₀) {m n : ℕ} (hmn : m ≤ n) :
    (run R config env ceiling lb c₀ m).currentL ≤ (run R config env ceiling lb c₀ n).currentL ∧
      (run R config env ceiling lb c₀ m).certifiedThreshold ≤
        (run R config env ceiling lb c₀ n).certifiedThreshold := by
  induction n, hmn using Nat.le_induction with
  | base => exact ⟨le_rfl, le_rfl⟩
  | succ n _ ih =>
      obtain ⟨-, hL, hT⟩ := (sound_run R config env ceiling lb I hceil ha h₀ hp.reported n).turn R config env lb
        hceil ha
        (turn_run ..) (hp.reported _)
      exact ⟨ih.1.trans hL, ih.2.trans hT⟩

/-- The coordinator finalizes only an optimal incumbent or one within the
threshold. -/
theorem finalizing_run (hb : config.boundedDepthSearch = false) (hf : env.timeoutFlag = none)
    {c₀ : Coordinator σ ρ τ} (hp : Promised R config env ceiling lb I forest0 c₀)
    (hm₀ : c₀.mode ≠ .finalizing) {n : ℕ} (hn : (run R config env ceiling lb c₀ n).mode = .finalizing) :
    (run R config env ceiling lb c₀ n).search.context.bestSolutionWeight = ((kStar I : ℚ) : WithTop ℚ) ∨
      Within (run R config env ceiling lb c₀ n).certifiedThreshold (run R config env ceiling lb c₀ n) := by
  cases n with
  | zero => exact absurd hn hm₀
  | succ n =>
      exact ((turn_run R config env ceiling lb c₀ n).finalizing R config env ceiling lb hb hf hn).imp
        (hp.exhausted n) id

/-- A weight within the threshold of a lower bound is within that of `k*`. -/
theorem Sound.size_le (hceil : IsCeiling ceiling) {κ : Context} (ha : 1 ≤ κ.a) (hb : 0 ≤ κ.b) {c : Coordinator σ ρ τ}
    (hc : Sound ceiling I κ c) {size : ℕ}
    (hs : c.search.context.bestSolutionWeight = ((size : ℚ) : WithTop ℚ))
    (h : c.search.context.bestSolutionWeight = ((kStar I : ℚ) : WithTop ℚ) ∨
      Within c.certifiedThreshold c) : (size : ℤ) ≤ ceiling κ (kStar I) := by
  rcases h with h | h
  · have hk : size = kStar I := by
      rw [hs] at h
      exact_mod_cast h
    rw [hk]
    exact hceil.le ha hb _
  · unfold Within at h
    rw [hs] at h
    have hle : (size : ℤ) ≤ c.certifiedThreshold := by exact_mod_cast h
    exact hle.trans (hc.threshold.trans_le (hceil.mono ha hc.le_kStar))

/-- The state in which `solve` enters its loops is sound. -/
theorem sound_start (hceil : IsCeiling ceiling) (cfg : LowerBoundCoordinatorConfig) {initialLowerBound : ℤ}
    {search : Search σ ρ} {sat : τ}
    (hthr : search.context.certifiedThreshold = ceiling search.context initialLowerBound)
    (hinit : initialLowerBound ≤ kStar I) (hsat : lb.getCurrentLowerBound sat ≤ kStar I) :
    Sound ceiling I search.context (start env ceiling lb cfg initialLowerBound search sat) := by
  unfold start
  dsimp only
  rcases adoptLowerBound_cases ceiling (lb.getCurrentLowerBound sat)
    ({ search := (search.now env).2, sat := sat, currentL := initialLowerBound,
       hardStop := (search.now env).1 + (cfg.totalBudgetSeconds - cfg.safetyMarginSeconds),
       mode := .loop (.schedule cfg.schedule) } : Coordinator σ ρ τ) with h | h
  · rw [h]
    exact ⟨rfl, rfl, hthr, hinit⟩
  · refine ⟨h.a, h.b, ?_, by rw [h.currentL]; exact hsat⟩
    rw [h.certifiedThreshold, h.currentL]
    exact congrFun (hceil.congr rfl rfl) _

/-- Folding in the first report lowers nothing. -/
theorem start_le (hceil : IsCeiling ceiling) {cfg : LowerBoundCoordinatorConfig} {initialLowerBound : ℤ}
    {search : Search σ ρ} {sat : τ} (ha : 1 ≤ search.context.a)
    (hthr : search.context.certifiedThreshold = ceiling search.context initialLowerBound) :
    initialLowerBound ≤ (start env ceiling lb cfg initialLowerBound search sat).currentL ∧
      search.context.certifiedThreshold ≤
        (start env ceiling lb cfg initialLowerBound search sat).certifiedThreshold := by
  unfold start
  dsimp only
  rcases adoptLowerBound_cases ceiling (lb.getCurrentLowerBound sat)
    ({ search := (search.now env).2, sat := sat, currentL := initialLowerBound,
       hardStop := (search.now env).1 + (cfg.totalBudgetSeconds - cfg.safetyMarginSeconds),
       mode := .loop (.schedule cfg.schedule) } : Coordinator σ ρ τ) with h | h
  · rw [h]
    exact ⟨le_rfl, le_rfl⟩
  · rw [h.currentL, h.certifiedThreshold, hthr, hceil.congr (d := search.context) rfl rfl]
    exact ⟨h.lt.le, hceil.mono ha h.lt.le⟩

/-- Folding in the first report leaves the lower-bound solver alone. -/
theorem start_sat (cfg : LowerBoundCoordinatorConfig) (initialLowerBound : ℤ)
    (search : Search σ ρ) (sat : τ) : (start env ceiling lb cfg initialLowerBound search sat).sat = sat :=
  adoptLowerBound_sat _ _ _

/-- `solve` starts with its schedule. -/
theorem start_mode (cfg : LowerBoundCoordinatorConfig) (initialLowerBound : ℤ)
    (search : Search σ ρ) (sat : τ) :
    (start env ceiling lb cfg initialLowerBound search sat).mode = .loop (.schedule cfg.schedule) := by
  unfold start adoptLowerBound
  dsimp only
  split_ifs <;> rfl

/-- An answer `true` is given by `finalize`, at a moment the loops are left. -/
theorem exists_finalizing {c₀ : Coordinator σ ρ τ} {agenda : Agenda} (hm₀ : c₀.mode = .loop agenda)
    {n : ℕ} (hn : (run R config env ceiling lb c₀ n).mode = .returned true) :
    ∃ m, m + 1 < n ∧ (run R config env ceiling lb c₀ (m + 1)).mode = .finalizing ∧
      (run R config env ceiling lb c₀ n).search =
        (run R config env ceiling lb c₀ (m + 1)).search.finalize R config := by
  induction n with
  | zero => rw [run_zero, hm₀] at hn; cases hn
  | succ n ih =>
      rcases (turn_run R config env ceiling lb c₀ n).returned_true R config env ceiling lb hn with h | ⟨hm, hs⟩
      · rw [h] at hn ⊢
        obtain ⟨m, hlt, hrest⟩ := ih hn
        exact ⟨m, hlt.trans (Nat.lt_succ_self n), hrest⟩
      · cases n with
        | zero => rw [run_zero, hm₀] at hm; cases hm
        | succ m => exact ⟨m, Nat.lt_succ_self _, hm, hs⟩

/-- **What `finalize` materialises when `solve` answers `true`** is an agreement
forest whose size is within the ceiling of `k*`. -/
theorem returned_true_run (hceil : IsCeiling ceiling) (hb : config.boundedDepthSearch = false)
    (hf : env.timeoutFlag = none)
    {κ : Context} (ha : 1 ≤ κ.a) (hb₀ : 0 ≤ κ.b) {c₀ : Coordinator σ ρ τ} (h₀ : Sound ceiling I κ c₀)
    {agenda : Agenda} (hm₀ : c₀.mode = .loop agenda)
    (hp : Promised R config env ceiling lb I forest0 c₀) {n : ℕ}
    (hn : (run R config env ceiling lb c₀ n).mode = .returned true) :
    AgreementForest I (forest0 (run R config env ceiling lb c₀ n).search.inst).blocks ∧
      ((forest0 (run R config env ceiling lb c₀ n).search.inst).length : ℤ) ≤
        ceiling κ (kStar I) := by
  obtain ⟨m, -, hm, hs⟩ := exists_finalizing R config env ceiling lb hm₀ hn
  -- the incumbent is finite, so `finalize` replays a stored solution
  have hfin := finalizing_run R config env ceiling lb I forest0 hb hf hp (by rw [hm₀]; simp) hm
  have hst := hp.stored (m + 1) (by rw [hm]; simp)
  have hne : (run R config env ceiling lb c₀ (m + 1)).search.solutionBranch ≠ [] := by
    intro hnil
    have htop := hst.empty hnil
    unfold Within at hfin
    rw [htop] at hfin
    simp at hfin
  rw [hs]
  exact ⟨hst.agreement hne, (sound_run R config env ceiling lb I hceil ha h₀ hp.reported (m + 1)).size_le
    ceiling I hceil ha hb₀ (hst.weight hne) hfin⟩

/-- **The coordinator is safe.**  Whatever the schedule, the clock readings and
the bounds reported, as long as these are at most `k*`: the bound `L` and the
threshold never decrease; when `solve` returns `true`, `finalize` has
materialised an agreement forest of at most `⌊a·k*⌋ + b` trees; when no slice
exhausts the search and no incumbent is ever within the final threshold, the
answer is `false`; and an answer is given once the clock moves on. -/
theorem coordinator_safe (cfg : LowerBoundCoordinatorConfig) (initialLowerBound : ℤ)
    (search : Search σ ρ) (sat : τ) (hb : config.boundedDepthSearch = false)
    (hf : env.timeoutFlag = none) (ha : 1 ≤ search.context.a) (hb₀ : 0 ≤ search.context.b)
    (hthr : search.context.certifiedThreshold = search.context.certifiedCeiling initialLowerBound)
    (hinit : initialLowerBound ≤ kStar I)
    (hp : Promised R config env Context.certifiedCeiling lb I forest0
      (start env Context.certifiedCeiling lb cfg initialLowerBound search sat)) :
    let c := run R config env Context.certifiedCeiling lb
      (start env Context.certifiedCeiling lb cfg initialLowerBound search sat)
    (initialLowerBound ≤ (c 0).currentL ∧
      search.context.certifiedThreshold ≤ (c 0).certifiedThreshold) ∧
    (∀ m n, m ≤ n → (c m).currentL ≤ (c n).currentL ∧
      (c m).certifiedThreshold ≤ (c n).certifiedThreshold) ∧
    (∀ n, (c n).mode = .returned true →
      AgreementForest I (forest0 (c n).search.inst).blocks ∧
        ((forest0 (c n).search.inst).length : ℤ) ≤
          ⌊search.context.a * kStar I⌋ + search.context.b) ∧
    (∀ n result, (c n).mode = .returned result → (∀ m < n, ¬Exhausts R config env (c m)) →
      (∀ m ≤ n, ¬Within (c n).certifiedThreshold (c m)) → result = false) ∧
    (Monotone env.clock → (∀ T, ∃ n, T ≤ env.clock n) → ∃ n result, (c n).mode = .returned result) := by
  have hsat : lb.getCurrentLowerBound sat ≤ kStar I := by
    have h := hp.reported 0
    rwa [run_zero, start_sat] at h
  have hceil := isCeiling_certifiedCeiling
  have h₀ := sound_start env Context.certifiedCeiling lb I hceil cfg hthr hinit hsat
  have hm₀ := start_mode env Context.certifiedCeiling lb cfg initialLowerBound search sat
  refine ⟨start_le env Context.certifiedCeiling lb hceil ha hthr,
    fun m n hmn => run_mono R config env Context.certifiedCeiling lb I forest0 hceil ha h₀ hp hmn,
    fun n hn => returned_true_run R config env Context.certifiedCeiling lb I forest0 hceil hb hf ha hb₀ h₀ hm₀ hp hn,
      ?_,
    ?_⟩
  · intro n result hn hex hwithin
    cases result with
    | false => rfl
    | true =>
        exfalso
        -- the step into the answer started from an incumbent within the threshold of that moment
        obtain ⟨m, hlt, hm, -⟩ := exists_finalizing R config env Context.certifiedCeiling lb hm₀ hn
        rcases (turn_run R config env Context.certifiedCeiling lb _ m).finalizing R config env Context.certifiedCeiling
          lb hb hf hm with h | h
        · exact hex m (by omega) h
        · refine hwithin (m + 1) hlt.le (le_trans h ?_)
          have hle := (run_mono R config env Context.certifiedCeiling lb I forest0 hceil ha h₀ hp hlt.le).2
          exact_mod_cast hle
  · intro hmono hunb
    exact returns_of_loop R config Context.certifiedCeiling lb hmono hunb _ _ hm₀

/-! A run on two trees with three labels, in which the report of a Sat slice makes the incumbent of the Branch
slice before it certify. -/

/-- The instance `((1,2),3)` and `(1,(2,3))`. -/
def threeLabels : Instance :=
  [[.node 0 (.node 1 (.leaf 2 1 ∅) (.leaf 3 2 ∅)) (.leaf 4 3 ∅)],
    [.node 0 (.leaf 1 1 ∅) (.node 2 (.leaf 3 2 ∅) (.leaf 4 3 ∅))]]

/-- Every label for itself. -/
def threeSingles : Forest := [.leaf 0 1 ∅, .leaf 1 2 ∅, .leaf 2 3 ∅]

/-- Both trees have the three labels. -/
theorem over_threeLabels : threeLabels.Over {1, 2, 3} := by
  refine ⟨by decide, ?_, ?_⟩
  · intro F hF
    simp only [threeLabels, List.mem_cons, List.not_mem_nil, or_false] at hF
    rcases hF with rfl | rfl <;> simp [Forest.Distinct, Tree.Distinct]
  · decide

/-- The single labels are an agreement forest. -/
theorem agreementForest_threeSingles : AgreementForest threeLabels threeSingles.blocks := by
  have h := (agreementForest_iff over_threeLabels (labels_blocks id)).2 ⟨isPartition_blocks id,
    isAgreement_of_injOn (fun C hC x hx => ?_) (Set.injOn_id _)⟩
  · rwa [show blocks {1, 2, 3} (id : Label → Label) = threeSingles.blocks by decide] at h
  · obtain ⟨F, hF, rfl⟩ := Instance.mem_clusters.1 hC
    exact (Forest.hierarchy (over_threeLabels.distinct F hF)).singleton x
      ((over_threeLabels.labels F hF).symm ▸ hx)

/-- One cut is needed, and one is enough. -/
theorem kStar_threeLabels : kStar threeLabels = 2 := by
  refine le_antisymm ?_ ?_
  · refine (kStar_le_of_isAgreement over_threeLabels (f := fun x => decide (x = 1)) ?_).trans (by decide)
    decide
  · obtain ⟨f, hf, hcard⟩ := exists_isAgreement_card_eq_kStar over_threeLabels
    by_contra hlt
    -- with one block the trees would be the same
    have hone : ∀ x ∈ ({1, 2, 3} : Finset Label), ∀ y ∈ ({1, 2, 3} : Finset Label), f x = f y := fun x hx y hy =>
      Finset.card_le_one.1 (by omega) (f x) (Finset.mem_image_of_mem f hx) (f y) (Finset.mem_image_of_mem f hy)
    have hsame : SameBlocks {1, 2, 3} f fun _ : Label => () := fun x hx y hy => iff_of_true (hone x hx y hy) rfl
    exact absurd (hf.congr hsame) (by decide)

/-- A branching rule that finds the single labels in every branch. -/
def singlesRules : RuleSystem Unit Unit where
  isApplicable _ _ := ()
  apply _ _ := (.endBranchWithSolutionCandidate, (), ())
  nextRuleSuggestion _ := []
  unapply _ _ := ((), ())
  isBranchingRule _ := true
  isFullyExplored _ := false
  clone _ := ()
  weightFunction _ := 3

/-- A clock that ticks at each reading. -/
def ticking : Environment := ⟨fun n => n, none⟩

/-- A lower-bound solver that finds out the bound 2. -/
def boundTwo : IIncrementalLowerBound ℤ := ⟨fun _ bound => bound, fun _ => 2, id⟩

/-- A turn keeps its reports. -/
theorem Turn.sat_le_two {c d : Coordinator σ ρ ℤ} (ht : Turn R config env ceiling boundTwo c d) (h : c.sat ≤ 2) :
    d.sat ≤ 2 := by
  cases ht with
  | sat hm => simp [runSatSlice, boundTwo]
  | scheduleDone | timeUp | branch | budget | accept | reject | advance | finalize | stay => exact h

/-- Whatever the coordinator does with it, it reports no more than 2. -/
theorem run_sat_le_two {c : Coordinator σ ρ ℤ} (h : c.sat ≤ 2) (n : ℕ) :
    (run R config env ceiling boundTwo c n).sat ≤ 2 := by
  induction n with
  | zero => exact h
  | succ n ih => exact (turn_run R config env ceiling boundTwo c n).sat_le_two R config env ceiling ih

/-- The search at the start, with a solution of `3/2 · k*` trees asked for. -/
def singlesSearch : Search Unit Unit := { inst := (), context := { a := 3 / 2, b := 0, certifiedThreshold := 1 } }

/-- A Branch slice and a Sat slice. -/
def twoSlices : LowerBoundCoordinatorConfig := ⟨[⟨.branch, 1⟩, ⟨.sat, 1⟩], 100, 0⟩

/-- The Branch slice finds three trees and is paused, the Sat slice reports two. -/
def singlesRun (n : ℕ) : Coordinator Unit Unit ℤ :=
  run singlesRules {} ticking Context.certifiedCeiling boundTwo
    (start ticking Context.certifiedCeiling boundTwo twoSlices 1 singlesSearch 1) n

/-- Where the run stands after each step. -/
theorem singlesRun_mode : (singlesRun 0).mode = .loop (.schedule [⟨.branch, 1⟩, ⟨.sat, 1⟩]) ∧
    (singlesRun 1).mode = .advancing false (.schedule [⟨.sat, 1⟩]) ∧
    (singlesRun 2).mode = .advancing true (.schedule [⟨.sat, 1⟩]) ∧
    (singlesRun 3).mode = .loop (.schedule [⟨.sat, 1⟩]) ∧ (singlesRun 4).mode = .finalizing ∧
    (singlesRun 5).mode = .returned true := by
  refine ⟨?_, ?_, ?_, ?_, ?_, ?_⟩ <;> with_unfolding_all rfl

/-- The answer stays. -/
theorem singlesRun_of_five_le (n : ℕ) : singlesRun (n + 5) = singlesRun 5 := by
  induction n with
  | zero => rfl
  | succ n ih =>
      have hstep : singlesRun (n + 1 + 5) =
          (singlesRun (n + 5)).step singlesRules {} ticking Context.certifiedCeiling boundTwo := by
        rw [singlesRun, singlesRun, run, run, show n + 1 + 5 = (n + 5) + 1 by omega, Function.iterate_succ_apply']
      rw [hstep, ih]
      simp only [step, singlesRun_mode.2.2.2.2.2]

/-- Before the Branch slice there is no incumbent. -/
theorem singlesRun_before {n : ℕ} (hn : n < 2) :
    (singlesRun n).search.solutionBranch = [] ∧ (singlesRun n).search.context.bestSolutionWeight = ⊤ := by
  match n, hn with
  | 0, _ | 1, _ => exact ⟨by with_unfolding_all rfl, by with_unfolding_all rfl⟩

/-- After its first iteration there is one of three trees. -/
theorem singlesRun_after {n : ℕ} (hn : 2 ≤ n) (hn' : n < 5) : (singlesRun n).search.solutionBranch = [()] ∧
    (singlesRun n).search.context.bestSolutionWeight = ((3 : ℚ) : WithTop ℚ) := by
  match n, hn, hn' with
  | 2, _, _ | 3, _, _ | 4, _, _ => exact ⟨by with_unfolding_all rfl, by with_unfolding_all rfl⟩

/-- The coordinator is promised what it needs. -/
theorem promised_singlesRun : Promised singlesRules {} ticking Context.certifiedCeiling boundTwo threeLabels
    (fun _ => threeSingles) (start ticking Context.certifiedCeiling boundTwo twoSlices 1 singlesSearch 1) := by
  refine ⟨fun n => ?_, fun n hn => ?_, fun n hn => ?_⟩
  · rw [kStar_threeLabels]
    exact run_sat_le_two singlesRules {} ticking Context.certifiedCeiling (by decide) n
  · change (singlesRun n).mode ≠ _ at hn
    change Stored _ _ _ _ (singlesRun n).search
    rcases Nat.lt_or_ge n 2 with h | h
    · obtain ⟨hbranch, hweight⟩ := singlesRun_before h
      exact ⟨fun _ => hweight, fun hne => absurd hbranch hne, fun hne => absurd hbranch hne⟩
    · rcases Nat.lt_or_ge n 5 with h' | h'
      · obtain ⟨hbranch, hweight⟩ := singlesRun_after h h'
        refine ⟨fun hnil => ?_, fun _ => agreementForest_threeSingles, fun _ => hweight⟩
        rw [hbranch] at hnil
        cases hnil
      · obtain ⟨k, rfl⟩ := Nat.exists_eq_add_of_le' h'
        exact absurd (singlesRun_of_five_le k ▸ singlesRun_mode.2.2.2.2.2) hn
  · -- the search goes on, or it is paused
    obtain ⟨p, agenda, hm, hex⟩ := hn
    change (singlesRun n).mode = _ at hm
    change ((singlesRun n).search.advanceIteration _ _ _ _).1 = _ at hex
    match n, hm with
    | 0, hm => rw [singlesRun_mode.1] at hm; cases hm
    | 1, hm =>
        rw [singlesRun_mode.2.1] at hm
        cases hm
        have hnone : ((singlesRun 1).search.advanceIteration singlesRules {} ticking false).1 = none := by
          with_unfolding_all rfl
        rw [hnone] at hex
        cases hex
    | 2, hm =>
        rw [singlesRun_mode.2.2.1] at hm
        cases hm
        have hpaused : ((singlesRun 2).search.advanceIteration singlesRules {} ticking true).1 = some .paused := by
          with_unfolding_all rfl
        rw [hpaused] at hex
        cases hex
    | 3, hm => rw [singlesRun_mode.2.2.2.1] at hm; cases hm
    | 4, hm => rw [singlesRun_mode.2.2.2.2.1] at hm; cases hm
    | k + 5, hm => rw [singlesRun_of_five_le, singlesRun_mode.2.2.2.2.2] at hm; cases hm

/-- **The incumbent of the Branch slice certifies after the Sat slice**: the report 2 raises the threshold from 1 to
3, and the coordinator answers `true` with the three single labels, where `k*` is 2. -/
theorem coordinator_safe_threeLabels :
    (singlesRun 3).certifiedThreshold = 1 ∧ (singlesRun 3).incumbentCertifies = false ∧
      (singlesRun 4).certifiedThreshold = 3 ∧ kStar threeLabels = 2 ∧
      (AgreementForest threeLabels threeSingles.blocks ∧ (3 : ℤ) ≤ ⌊(3 / 2 : ℚ) * kStar threeLabels⌋ + 0) ∧
      (singlesRun 3).certifiedThreshold ≤ (singlesRun 4).certifiedThreshold := by
  have hsafe := coordinator_safe singlesRules {} ticking boundTwo threeLabels (fun _ => threeSingles) twoSlices 1
    singlesSearch 1 rfl rfl (by norm_num [singlesSearch]) le_rfl (by with_unfolding_all rfl)
    (by rw [kStar_threeLabels]; norm_num) promised_singlesRun
  exact ⟨by with_unfolding_all rfl, by with_unfolding_all rfl, by with_unfolding_all rfl, kStar_threeLabels,
    hsafe.2.2.1 5 singlesRun_mode.2.2.2.2.2, (hsafe.2.1 3 4 (by norm_num)).2⟩

end Coordinator

end Maf
