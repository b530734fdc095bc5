/-
# The answer of a search

`src/Solver/BranchingSolver.cpp`: `finalize` replays clones of the rules that led to the best solution,
and `unapplyReductions` undoes those of them that are reductions; the cuts stay.  What is left of
forest 0 is an agreement forest of the instance the search was started on, with as many trees as the
weight that was recorded (`AnswerInvariant.agreementForest`).

Two invariants carry this through a search, next to that of the memory.  Every applied rule came from a clone
of itself, so a replay
from the start gets to the memory of the solution (`Branch.replay`), and it brings answers back to the
memory it was applied to (`Branch.unapplyReductions`).  At the solution itself forest 0 consists of single
vertices, the finest agreement forest there is (`answers_of_singleVertices`).

The lower-bound track and the pipelines of `src/startSolver.cpp` start from the solution of an
approximation, which is taken off the instance first (`seedFromApproximation`).
-/

import Maf.ILP.CutSet
import Maf.Rule.Answers
import Maf.Solver.Backtracking
import Maf.Solver.PauseResume

namespace Maf

open Graph RuleObject

namespace Search

variable {σ ρ : Type*} (R : RuleSystem σ ρ) (config : Configuration) (env : Environment)

/-- The loop of `unapplyReductions`, over the applied rules, the last one first. -/
def unapplyReductionsLoop (isReduction : ρ → Bool) : List ρ → σ → List ρ × σ
  | [], st => ([], st)
  | r :: rs, st =>
      let u := if isReduction r then R.unapply r st else (r, st)
      let rest := unapplyReductionsLoop isReduction rs u.2
      (u.1 :: rest.1, rest.2)

/-- **`unapplyReductions`.** -/
def unapplyReductions (isReduction : ρ → Bool) (s : Search σ ρ) : Search σ ρ :=
  let u := unapplyReductionsLoop R isReduction s.appliedRules s.inst
  { s with inst := u.2, appliedRules := u.1 }

/-- `seedFromApproximation`, after the search of the approximation: its solution is finalized, measured,
and rolled back off the instance.  The rules of the branch are the ones that were unapplied. -/
def seedFromApproximation (size : σ → ℕ) (s : Search σ ρ) : (List ρ × ℕ) × σ :=
  let f := finalize R config s
  let u := unapplySolutionBranch R f
  ((u.1, size f.inst), u.2.inst)

/-- **The states of a search between whose calls the caller only arms it**: the pause deadline and the
constants of the certification. -/
inductive Session (s₀ : Search σ ρ) : Search σ ρ → Prop
  | start : Session s₀ s₀
  | iterate {s : Search σ ρ} (madeProgressThisCall : Bool) :
      Session s₀ s → Session s₀ (advanceIteration R config env madeProgressThisCall s).2
  | resume {s t : Search σ ρ} : Session s₀ s → t.inst = s.inst → t.appliedRules = s.appliedRules →
      t.applyNext = s.applyNext → t.solutionBranch = s.solutionBranch →
      t.context.bestSolutionWeight = s.context.bestSolutionWeight → Session s₀ t

/-- The states of a session are reachable. -/
theorem Session.reachable {s₀ s : Search σ ρ} (h : Session R config env s₀ s) :
    Reachable R config env s₀ s := by
  induction h with
  | start => exact .start
  | iterate b _ ih => exact .iterate b ih
  | resume _ hinst happlied hnext _ _ ih => exact .resume ih hinst happlied hnext

/-- What a reading of the timeout flag leaves alone. -/
structure Kept (s u : Search σ ρ) : Prop where
  inst : u.inst = s.inst
  appliedRules : u.appliedRules = s.appliedRules
  applyNext : u.applyNext = s.applyNext
  solutionBranch : u.solutionBranch = s.solutionBranch
  context : u.context = s.context

/-- Reading the flag leaves the search alone. -/
theorem kept_timeoutReached (s : Search σ ρ) : Kept s (timeoutReached env s).2 := by
  unfold timeoutReached
  cases env.timeoutFlag <;> exact ⟨rfl, rfl, rfl, rfl, rfl⟩

/-- The pause check leaves it alone as well. -/
theorem kept_pauseCheck (madeProgressThisCall : Bool) (s : Search σ ρ) :
    Kept s (pauseCheck env madeProgressThisCall (timeoutReached env s).2).2 := by
  have hcore := core_pauseCheck env madeProgressThisCall (timeoutReached env s).2
  have htime := kept_timeoutReached env s
  exact ⟨(congrArg Search.inst hcore).trans htime.inst, (congrArg Search.appliedRules hcore).trans htime.appliedRules,
    (congrArg Search.applyNext hcore).trans htime.applyNext,
    (congrArg Search.solutionBranch hcore).trans htime.solutionBranch,
    (pauseCheck_context env madeProgressThisCall _).trans htime.context⟩

/-- A replay in two parts. -/
theorem replay_append (rs rs' : List ρ) (st : σ) :
    replay R (rs ++ rs') st = ((replay R rs st).1 ++ (replay R rs' (replay R rs st).2).1,
      (replay R rs' (replay R rs st).2).2) := by
  induction rs generalizing st with
  | nil => rfl
  | cons r rs ih => simp only [List.cons_append, replay, ih]

end Search

section Answers

variable {width fuel k : ℕ} {X : Finset Label} {m M : Memory} {Fs : List Forest}

/-- **The memory `M` answers the memory `m`** with `k` trees. -/
def Answers (width fuel : ℕ) (m M : Memory) (k : ℕ) : Prop :=
  ∃ X Fs Hs, m.Holds width fuel Fs ∧ (∀ F ∈ Fs, F.labels = X) ∧ m.Answer width X Fs M Hs k

/-- A rule brings answers back to the memory it was applied to. -/
theorem answers_of_bringsBack {r' : RuleObject} {m' : Memory} (hm : m.Holds width fuel Fs)
    (hX : ∀ F ∈ Fs, F.labels = X)
    (hne : Fs ≠ []) (hback : BringsBack width fuel X Fs r' m m') (h : Answers width fuel m' M k) :
    ∃ M', r'.unapplyReduction fuel M = some M' ∧ Answers width fuel m M' k := by
  obtain ⟨X', Gs, hm', hX', htrim, hback⟩ := hback
  obtain ⟨Y, Gs', Hs, hm'', hY, hans⟩ := h
  obtain rfl := hm''.read.symm.trans hm'.read
  obtain ⟨G, hG⟩ : ∃ G, G ∈ Gs' := List.exists_mem_of_ne_nil _ fun hnil => hne (List.length_eq_zero_iff.1 (by
    rw [htrim.length_eq, hnil]
    rfl))
  obtain rfl := (hX' G hG).symm.trans (hY G hG)
  obtain ⟨M', Hs', hundo, hans'⟩ := hback M Hs k hans
  exact ⟨M', hundo, X, Fs, Hs', hm, hX, hans'⟩

/-- **Single vertices** are an answer for the memory they are in. -/
theorem answers_of_singleVertices {F : Forest} (hm : m.Holds width fuel Fs)
    (hX : ∀ F ∈ Fs, F.labels = X)
    (hF : Fs[0]? = some F) (h : ∀ t ∈ F, t.isTerminal = true) : Answers width fuel m m F.length := by
  refine ⟨X, Fs, Fs, hm, hX, ⟨⟨hm.length, rfl, fun {i s s₁ G H} hs hG hs₁ hH => ?_⟩, id, ?_, fun G H hG hH => ?_⟩⟩
  · obtain rfl := Option.some.inj (hs.symm.trans hs₁)
    obtain rfl := Option.some.inj (hG.symm.trans hH)
    exact .refl (hm.held hs hG).wellFormed (hm.held hs hG).indexed
  · exact isAgreement_of_injOn (fun C hC x hx => (hm.hierarchy hX C hC).singleton x hx) (Set.injOn_id _)
  · obtain rfl := Option.some.inj (hF.symm.trans hG)
    obtain rfl := Option.some.inj (hF.symm.trans hH)
    obtain ⟨s, -, hheld⟩ := hm.get hF
    refine ⟨.refl hheld.wellFormed.valid.distinct, fun t ht x hx => ?_, rfl⟩
    cases t with
    | node p l r => exact absurd (h _ ht) Bool.false_ne_true
    | leaf p y e =>
        obtain rfl := Finset.mem_singleton.1 hx
        ext z
        rw [Finset.mem_filter, Tree.labels, Finset.mem_singleton]
        exact ⟨fun hz => ⟨hz ▸ Forest.mem_labels.2 ⟨_, ht, hx⟩, hz⟩, And.right⟩

/-- **What is left of forest 0 is an agreement forest** of the forests that are answered, and its trees
are induced by forest 0. -/
theorem Answers.agreementForest (hm : m.Holds width fuel Fs) (hX : ∀ F ∈ Fs, F.labels = X)
    (hne : Fs ≠ [])
    (h : Answers width fuel m M k) :
    ∃ s G F, M.forests[0]? = some s ∧ Held width fuel s G ∧ Fs[0]? = some F ∧
      G.labels = X ∧ G.length = k ∧ F.Induced G ∧ AgreementForest Fs G.blocks := by
  obtain ⟨Y, Fs', Hs, hm', hY, hans⟩ := h
  obtain rfl := hm'.read.symm.trans hm.read
  have hpos : 0 < Fs'.length := List.length_pos_of_ne_nil hne
  have hposH : 0 < Hs.length := hans.length_eq ▸ hpos
  have hF := List.getElem?_eq_getElem hpos
  have hG := List.getElem?_eq_getElem hposH
  have hs := List.getElem?_eq_getElem (hans.length ▸ hposH : 0 < M.forests.length)
  set F := Fs'[0]
  set G := Hs[0]
  obtain ⟨s₀, hs₀, hheld⟩ := hm.get hF
  have hrem := hans.remnant hs₀ hF hs hG
  have hv := hrem.wellFormed.valid
  have hlab : G.labels = X := hrem.labels.trans (hX F (List.mem_of_getElem? hF))
  obtain rfl : Y = X := (hY F (List.mem_of_getElem? hF)).symm.trans (hX F (List.mem_of_getElem? hF))
  obtain ⟨f, hf, hblocks⟩ := hans.blocks
  obtain ⟨hind, hhas, hk⟩ := hblocks F G hF hG
  have hlen : G.ptrs.length ≤ fuel := (hv.nodup.subperm hrem.ptrs).length_le.trans hheld.length_le
  refine ⟨_, G, F, hs, ⟨hrem.wellFormed, hrem.indexed, hlen⟩, hF, hlab, hk, hind, ?_⟩
  have hI : Instance.Over Fs' Y := by
    refine ⟨hne, fun F hF => ?_, hX⟩
    obtain ⟨i, hi⟩ := List.mem_iff_getElem?.1 hF
    obtain ⟨s, -, hheld⟩ := hm.get hi
    exact hheld.wellFormed.valid.distinct
  have hlabels : Labels Y G.blocks f := by
    intro x hx y hy
    constructor
    · intro hxy
      obtain ⟨t, ht, hxt⟩ := Forest.mem_labels.1 (hlab ▸ hx)
      refine ⟨t.labels, by rw [Forest.blocks, List.mem_toFinset]; exact List.mem_map_of_mem ht, hxt, ?_⟩
      rw [hhas t ht x hxt, Finset.mem_filter]
      exact ⟨hlab ▸ hy, hxy.symm⟩
    · rintro ⟨B, hB, hxB, hyB⟩
      rw [Forest.blocks, List.mem_toFinset] at hB
      obtain ⟨t, ht, rfl⟩ := List.mem_map.1 hB
      rw [hhas t ht x hxB, Finset.mem_filter] at hyB
      exact hyB.2.symm
  exact (agreementForest_iff hI hlabels).2 ⟨hlab ▸ Forest.isPartition_blocks hv.distinct, hf⟩

end Answers

section Branch

variable {e : Surroundings} {width : ℕ} {m₀ : Memory} (rules : List IsApplicableFn)

/-- **A rule that may be applied next**: it has work to do, and the counter of its branches is used by
branching rules only. -/
structure Waiting (width fuel : ℕ) (m : Memory) (r : RuleObject) : Prop where
  warranted : ∀ Fs : List Forest, m.Holds width fuel Fs → r.rule.Warranted Fs
  branch : r.isBranchingRule = false → r.branch = 0

/-- **A branch of the search tree**, the last rule first, over the memory `m₀` of the start: each rule came
from its clone, which had work to do, is undone by its `unapply`, and brings answers back. -/
inductive Branch (width fuel : ℕ) (m₀ : Memory) : List (Option RuleObject) → Memory → Prop
  | nil : Branch width fuel m₀ [] m₀
  | cons {rs : List (Option RuleObject)} {r : RuleObject} {code : RuleReturnCode} {m m' : Memory} :
      Branch width fuel m₀ rs m → Waiting width fuel m r.clone → (r.isBranchingRule = false → r.branch = 0) →
      r.clone.apply fuel m = some (code, r, m') →
      r.unapply fuel m' = some ({ rule := r.rule, branch := r.branch }, m) →
      (∀ M k, Answers width fuel m' M k → ∃ M', r.unapplyReduction fuel M = some M' ∧ Answers width fuel m M' k) →
      Branch width fuel m₀ (some r :: rs) m'

/-- `clone` of every rule, in the order of the application. -/
def cloned (rs : List (Option RuleObject)) : List (Option RuleObject) :=
  (rs.map (Option.map RuleObject.clone)).reverse

/-- `IsReduction` of a rule. -/
def isReduction (r : Option RuleObject) : Bool := r.any RuleObject.isReduction

/-- **The clones replay the branch**, from the memory of the start to that of its end. -/
theorem Branch.replay {rs : List (Option RuleObject)} {m : Memory} (h : Branch width e.fuel m₀ rs m) :
    Search.replay (ruleSystem e rules) (cloned rs) (some m₀) = (rs.reverse, some m) := by
  induction h with
  | nil => rfl
  | @cons rs r code m m' _ _ _ happly _ _ ih =>
      have hstep : (ruleSystem e rules).apply (some r.clone) (some m) = (code, some r, some m') := by
        simp only [ruleSystem, Option.bind_eq_bind, Option.bind_some, happly]
      rw [cloned, List.map_cons, List.reverse_cons, Search.replay_append]
      rw [cloned] at ih
      simp only [ih, Option.map_some, Search.replay, hstep, List.reverse_cons]

/-- **The whole branch is unapplied**, its last rule first; what comes back are fresh rules. -/
theorem Branch.unapplyEach {rs : List (Option RuleObject)} {m : Memory}
    (h : Branch width e.fuel m₀ rs m) :
    Search.unapplyEach (ruleSystem e rules) rs (some m) =
      (rs.map (Option.map fun r => { rule := r.rule, branch := r.branch }), some m₀) := by
  induction h with
  | nil => rfl
  | @cons rs r code m m' _ _ _ _ hundo _ ih =>
      have hstep : (ruleSystem e rules).unapply (some r) (some m') =
          (some { rule := r.rule, branch := r.branch }, some m) := by
        simp only [ruleSystem, Option.bind_eq_bind, Option.bind_some, hundo]
      simp only [Search.unapplyEach, hstep, ih, List.map_cons, Option.map_some]

/-- **The reductions of the branch are undone** in what answers its end, and what is left answers the
start. -/
theorem Branch.unapplyReductions {rs : List (Option RuleObject)} {m M : Memory} {k : ℕ}
    (h : Branch width e.fuel m₀ rs m)
    (hans : Answers width e.fuel m M k) : ∃ M', Answers width e.fuel m₀ M' k ∧
      (Search.unapplyReductionsLoop (ruleSystem e rules) isReduction rs (some M)).2 = some M' := by
  induction h generalizing M with
  | nil => exact ⟨M, hans, rfl⟩
  | @cons rs r code m m' _ _ _ _ _ hback ih =>
      obtain ⟨M₁, hundo, hans₁⟩ := hback M k hans
      obtain ⟨M₂, hans₂, hloop⟩ := ih hans₁
      refine ⟨M₂, hans₂, ?_⟩
      have hstep : (if isReduction (some r) then (ruleSystem e rules).unapply (some r) (some M)
          else (some r, some M)).2 = some M₁ := by
        rw [unapplyReduction] at hundo
        change (if r.isReduction then (ruleSystem e rules).unapply (some r) (some M) else (some r, some M)).2 = some M₁
        split_ifs at hundo ⊢
        · obtain ⟨⟨r', M'⟩, hrun, rfl⟩ := Option.map_eq_some_iff.1 hundo
          simp only [ruleSystem, Option.bind_eq_bind, Option.bind_some, hrun]
        · exact hundo
      rw [Search.unapplyReductionsLoop]
      dsimp only
      rw [hstep, hloop]

/-- The rules that are rolled back are unapplied, and the branch below them is left. -/
theorem Branch.rollBackLoop {rs : List (Option RuleObject)} {m : Memory}
    (h : Branch width e.fuel m₀ rs m) :
    ∃ b rs' next m', Search.rollBackLoop (ruleSystem e rules) rs (some m) = (b, rs', next, some m') ∧
      Branch width e.fuel m₀ rs' m' ∧ ∀ r, some r ∈ next → Waiting width e.fuel m' r := by
  induction h with
  | nil => exact ⟨true, [], [], m₀, rfl, .nil, nofun⟩
  | @cons rs r code m m' hbranch hwait _ _ hundo _ ih =>
      have hstep : (ruleSystem e rules).unapply (some r) (some m') =
          (some { rule := r.rule, branch := r.branch }, some m) := by
        simp only [ruleSystem, Option.bind_eq_bind, Option.bind_some, hundo]
      rw [Search.rollBackLoop, hstep]
      dsimp only
      split_ifs with hmore
      · refine ⟨false, rs, _, m, rfl, hbranch, fun r' hr' => ?_⟩
        obtain rfl := Option.some.inj (List.mem_singleton.1 hr')
        rw [Bool.and_eq_true] at hmore
        refine ⟨hwait.warranted, fun hno => ?_⟩
        have hbr : RuleObject.isBranchingRule { rule := r.rule, branch := r.branch } = true := hmore.1
        rw [hbr] at hno
        cases hno
      · exact ih

/-- **A solution**: clones of a branch at whose end forest 0 has `k` single vertices. -/
def Solves (width fuel : ℕ) (m₀ : Memory) (solutionBranch : List (Option RuleObject)) (k : ℕ) : Prop :=
  ∃ rs m, Branch width fuel m₀ rs m ∧ rs ≠ [] ∧ solutionBranch = cloned rs ∧ Answers width fuel m m k

/-- **The incumbent**: no solution, or one with as many trees as the weight says. -/
def Incumbent (width fuel : ℕ) (m₀ : Memory) (s : Search (Option Memory) (Option RuleObject)) : Prop :=
  s.solutionBranch = [] ∧ s.context.bestSolutionWeight = ⊤ ∨
    ∃ k : ℕ, Solves width fuel m₀ s.solutionBranch k ∧ s.context.bestSolutionWeight = ((k : ℚ) : WithTop ℚ)

/-- **The second invariant of the search**: the applied rules are a branch, and what waits has work to do. -/
def BranchInvariant (e : Surroundings) (width : ℕ) (m₀ : Memory)
    (s : Search (Option Memory) (Option RuleObject)) : Prop :=
  ∃ m, s.inst = some m ∧ Branch width e.fuel m₀ s.appliedRules m ∧
    ∀ r, some r ∈ s.applyNext → Waiting width e.fuel m r

/-- **The third invariant of the search**: the incumbent is a solution. -/
def AnswerInvariant (e : Surroundings) (width : ℕ) (m₀ : Memory)
    (s : Search (Option Memory) (Option RuleObject)) : Prop :=
  BranchInvariant e width m₀ s ∧ Incumbent width e.fuel m₀ s

end Branch

section Step

variable {e : Surroundings} {width t : ℕ} {m₀ : Memory} {rules : List IsApplicableFn}
  {config : Configuration}
  {env : Environment} {s u : Search (Option Memory) (Option RuleObject)}

/-- The incumbent is the solution and its weight. -/
theorem Incumbent.congr (h : Incumbent width e.fuel m₀ s) (hsol : u.solutionBranch = s.solutionBranch)
    (hweight : u.context.bestSolutionWeight = s.context.bestSolutionWeight) :
    Incumbent width e.fuel m₀ u := by
  unfold Incumbent
  rwa [hsol, hweight]

/-- The second invariant depends on the instance, the stack and the queue only. -/
theorem BranchInvariant.congr (h : BranchInvariant e width m₀ s) (hinst : u.inst = s.inst)
    (happlied : u.appliedRules = s.appliedRules) (hnext : u.applyNext = s.applyNext) :
    BranchInvariant e width m₀ u := by
  obtain ⟨m, hm, hbranch, hwait⟩ := h
  exact ⟨m, hinst.trans hm, happlied ▸ hbranch, hnext ▸ hwait⟩

/-- What leaves the search alone keeps the first invariant. -/
theorem SearchInvariant.kept (h : SearchInvariant e width t m₀ s) (hu : Search.Kept s u) :
    SearchInvariant e width t m₀ u := h.congr hu.inst hu.appliedRules hu.applyNext

/-- What leaves the search alone keeps the second invariant. -/
theorem BranchInvariant.kept (h : BranchInvariant e width m₀ s) (hu : Search.Kept s u) :
    BranchInvariant e width m₀ u := h.congr hu.inst hu.appliedRules hu.applyNext

/-- What leaves the search alone keeps the incumbent. -/
theorem Incumbent.kept (h : Incumbent width e.fuel m₀ s) (hu : Search.Kept s u) : Incumbent width e.fuel m₀ u :=
  h.congr hu.solutionBranch (congrArg _ hu.context)

/-- A search that has a solution keeps one. -/
theorem Incumbent.ne_nil {fuel : ℕ} (h : Incumbent width fuel m₀ s)
    (hlt : s.context.bestSolutionWeight < ⊤) :
    s.solutionBranch ≠ [] := by
  rcases h with ⟨-, htop⟩ | ⟨-, ⟨rs, -, -, hrs, hcloned, -⟩, -⟩
  · exact absurd htop hlt.ne
  · intro hnil
    rw [hcloned, cloned, List.reverse_eq_nil_iff, List.map_eq_nil_iff] at hnil
    exact hrs hnil

/-- **The next rule is ready, and has work to do.** -/
theorem SearchInvariant.exists_ready (hiter : ∀ m l, (e.iterated m l).Perm l) (ht : t ≠ 0)
    (hrules : rules = defaultRules e ∨ rules = approximationRules e ∨ rules = basicRuleList e)
    (h : SearchInvariant e width t m₀ s) (hbranch : BranchInvariant e width m₀ s) :
    ∃ X m r, s.inst = some m ∧ r.Ready width e.fuel t X m ∧ Waiting width e.fuel m r ∧
      Search.nextRule (ruleSystem e rules) s = (some r, { s with applyNext := [] }) := by
  obtain ⟨m, hinst, hsound, -, hqueue⟩ := h
  obtain ⟨m', hinst', -, hwait⟩ := hbranch
  obtain rfl := Option.some.inj (hinst.symm.trans hinst')
  rcases hqueue with hnil | ⟨r, hone, X, horder, hready⟩
  · obtain ⟨X, Fs, hhold⟩ := hsound
    have hne : Fs ≠ [] := by
      rintro rfl
      exact ht hhold.length.symm
    obtain ⟨rule, hfirst, hfit⟩ := selectsAlways hiter ht hrules s.context m X Fs hhold
    refine ⟨X, m, { rule := rule }, hinst, ready_of_fits hhold hfit, ⟨fun Gs hGs => ?_, fun _ => rfl⟩, ?_⟩
    · obtain rfl := hGs.read.symm.trans hhold.holds.read
      exact hhold.warranted hne hiter hrules hfirst
    · have happlicable : (ruleSystem e rules).isApplicable s.context s.inst = some { rule := rule } := by
        simp only [ruleSystem, hinst, Option.bind_eq_bind, Option.bind_some, hfirst]
      unfold Search.nextRule
      rw [hnil]
      dsimp only
      rw [happlicable]
      cases s
      cases hnil
      rfl
  · refine ⟨X, m, r, hinst, hready, hwait r (by rw [hone]; exact List.mem_singleton_self _), ?_⟩
    unfold Search.nextRule
    rw [hone]

/-- Only `CheckSingleVertexTreesRule` reports a solution candidate, and it changes nothing. -/
theorem eq_of_endBranch {X : Finset Label} {m m' : Memory} {r r' : RuleObject}
    (hready : r.Ready width e.fuel t X m)
    (h : Applied width e.fuel t X r m .endBranchWithSolutionCandidate r' m') :
    r.rule = .checkSingleVertexTrees ∧ m' = m := by
  obtain ⟨b, hrun, hcode⟩ := h.exists_run hready
  cases b with
  | true =>
      rw [if_pos rfl] at hcode
      cases hcode
  | false =>
      rw [if_neg Bool.false_ne_true] at hcode
      unfold body at hcode hrun
      cases hr : r.rule with
      | checkSingleVertexTrees =>
          rw [show r.begun.rule = _ from hr] at hrun
          obtain ⟨-, hrest⟩ := Prod.mk.inj (Option.some.inj hrun)
          exact ⟨rfl, (Prod.mk.inj hrest).2.symm⟩
      | abcBranching a c bs =>
          rw [show r.begun.rule = _ from hr] at hcode
          dsimp only at hcode
          split_ifs at hcode
      | _ =>
          rw [show r.begun.rule = _ from hr] at hcode
          cases hcode

/-- **The next rule is applied** and lengthens the branch; a candidate has single vertices in forest 0. -/
theorem BranchInvariant.applyRule (hiter : ∀ m l, (e.iterated m l).Perm l) (ht : t ≠ 0)
    (hrules : rules = defaultRules e ∨ rules = approximationRules e ∨ rules = basicRuleList e)
    (h : SearchInvariant e width t m₀ s) (hb : BranchInvariant e width m₀ s) :
    ∃ code r' m', Search.applyRule (ruleSystem e rules) s =
        (code, some r', { s with inst := some m', appliedRules := some r' :: s.appliedRules, applyNext := [] }) ∧
      Branch width e.fuel m₀ (some r' :: s.appliedRules) m' ∧ code ≠ .immediateReturn ∧
      (code = .endBranchWithSolutionCandidate → ∃ f, m'.forests.head? = some f ∧
        Answers width e.fuel m' m' f.roots.length) ∧
      (code = .continueWithRuleSuggestion → ∀ q ∈ r'.nextRuleSuggestion, Waiting width e.fuel m' q) := by
  obtain ⟨X, m, r, hinst, hready, hwait, hnext⟩ := h.exists_ready hiter ht hrules hb
  obtain ⟨m₁, hinst', hbranch, -⟩ := hb
  obtain rfl := Option.some.inj (hinst.symm.trans hinst')
  obtain ⟨code, r', m', happ⟩ := apply_spec hready
  have hclone := happ.clone hready hwait.branch
  obtain ⟨Fs, hm, hX, hback⟩ := happ.bringsBack hready
  have hne : Fs ≠ [] := by
    obtain ⟨Gs, hGs, hlen, -⟩ := hready.fits
    rintro rfl
    obtain rfl := hGs.read.symm.trans hm.read
    exact ht hlen.symm
  have happly : r'.clone.apply e.fuel m = some (code, r', m') := hclone ▸ happ.applied
  have hcons : Branch width e.fuel m₀ (some r' :: s.appliedRules) m' := by
    refine .cons hbranch ?_ (fun hno => ?_) happly ?_ fun M k => answers_of_bringsBack hm hX hne hback
    · rwa [hclone]
    · have hbr : r.isBranchingRule = false := (isBranchingRule_of_rule happ.rule).symm.trans hno
      rw [happ.branch, hbr, hwait.branch hbr]
      rfl
    · rw [happ.rule]
      exact happ.undone
  refine ⟨code, r', m', ?_, hcons, happ.goesOn, ?_, ?_⟩
  · unfold Search.applyRule
    rw [hnext]
    simp only [ruleSystem, hinst, Option.bind_eq_bind, Option.bind_some, happ.applied]
  · rintro rfl
    obtain ⟨hrule, rfl⟩ := eq_of_endBranch hready happ
    obtain ⟨F, fs, rfl⟩ := List.exists_cons_of_ne_nil hne
    obtain ⟨f, hf, hheld⟩ := hm.get (i := 0) (F := F) rfl
    have hsingle := hwait.warranted _ hm
    rw [hrule] at hsingle
    refine ⟨f, by rwa [List.head?_eq_getElem?], ?_⟩
    rw [hheld.wellFormed.stored.roots, List.length_map]
    exact answers_of_singleVertices hm hX rfl (hsingle F rfl)
  · rintro - q hq
    unfold nextRuleSuggestion at hq
    cases hr : r'.rule with
    | abcBranching a c bs =>
        rw [hr] at hq
        obtain rfl := List.mem_singleton.1 hq
        exact ⟨fun _ _ => trivial, fun _ => rfl⟩
    | _ =>
        rw [hr] at hq
        cases hq

/-- **A candidate with fewer trees** becomes the incumbent. -/
theorem Incumbent.checkSolutionCandidate (hw : ∀ f, e.weightFunction f = f.roots.length)
    (h : Incumbent width e.fuel m₀ s)
    {m : Memory} {f : Store} {r : Option RuleObject} {rs : List (Option RuleObject)}
    (hinst : s.inst = some m)
    (happlied : s.appliedRules = r :: rs) (hbranch : Branch width e.fuel m₀ (r :: rs) m)
    (hf : m.forests.head? = some f)
    (hans : Answers width e.fuel m m f.roots.length) :
    Incumbent width e.fuel m₀ (Search.checkSolutionCandidate (ruleSystem e rules) s) := by
  have hweight : (ruleSystem e rules).weightFunction s.inst = f.roots.length := by
    simp only [ruleSystem, hinst, Option.bind_some, hf, Option.map_some, Option.getD_some, hw]
  unfold Search.checkSolutionCandidate
  dsimp only
  split_ifs
  · refine Or.inr ⟨f.roots.length, ⟨_, m, hbranch, List.cons_ne_nil _ _, ?_, hans⟩, ?_⟩
    · rw [happlied]
      rfl
    · exact congrArg _ hweight
  · exact h

/-- **A branch is rolled back** to a rule that is applied again, or to the start. -/
theorem BranchInvariant.rollBackBranch {m : Memory} (hm₀ : ∃ t, Stacked e width t m₀ s.appliedRules m)
    (hinst : s.inst = some m) (hbranch : Branch width e.fuel m₀ s.appliedRules m) :
    BranchInvariant e width m₀ (Search.rollBackBranch (ruleSystem e rules) env s).2 := by
  have htime := Search.kept_timeoutReached env s
  unfold Search.rollBackBranch
  dsimp only
  split_ifs
  · obtain ⟨t, hstack⟩ := hm₀
    refine ⟨m₀, ?_, .nil, nofun⟩
    simp only [Search.unwindAppliedRules, htime.inst, htime.appliedRules, hinst]
    exact hstack.unapplyAll
  · obtain ⟨b, rs', next, m', hloop, hbranch', hwait⟩ := hbranch.rollBackLoop rules
    rw [htime.inst, htime.appliedRules, hinst, hloop]
    exact ⟨m', rfl, hbranch', hwait⟩

/-- Rolling a branch back leaves the incumbent alone. -/
theorem Incumbent.rollBackBranch (h : Incumbent width e.fuel m₀ s) :
    Incumbent width e.fuel m₀ (Search.rollBackBranch (ruleSystem e rules) env s).2 := by
  have htime := Search.kept_timeoutReached env s
  unfold Search.rollBackBranch
  dsimp only
  split_ifs
  · exact h.congr htime.solutionBranch (congrArg _ htime.context)
  · exact h.congr htime.solutionBranch (congrArg _ htime.context)

/-- The end of the search space leaves the incumbent alone. -/
theorem Incumbent.searchSpaceFinished (b : Bool) (h : Incumbent width e.fuel m₀ s) :
    Incumbent width e.fuel m₀ (Search.searchSpaceFinished config b s).2 := by
  unfold Search.searchSpaceFinished
  split_ifs
  · exact h.congr rfl rfl
  · exact h
  · exact h

/-- **One iteration keeps the second invariant.** -/
theorem BranchInvariant.advanceIteration (hiter : ∀ m l, (e.iterated m l).Perm l) (ht : t ≠ 0)
    (hrules : rules = defaultRules e ∨ rules = approximationRules e ∨ rules = basicRuleList e)
    (madeProgressThisCall : Bool) (h : SearchInvariant e width t m₀ s) (hb : BranchInvariant e width m₀ s) :
    BranchInvariant e width m₀ (Search.advanceIteration (ruleSystem e rules) config env madeProgressThisCall s).2 := by
  have hpause := Search.kept_pauseCheck env madeProgressThisCall s
  rcases Search.advanceIteration_cases (ruleSystem e rules) config env madeProgressThisCall s with
    ⟨-, heq⟩ | ⟨-, heq⟩ | ⟨-, heq⟩ | ⟨-, -, -, code, rule, u, -, happly, heq⟩
  · rw [heq]
    exact hb
  · rw [heq]
    exact hb.kept (Search.kept_timeoutReached env s)
  · rw [heq]
    exact hb.kept hpause
  · rw [heq]
    obtain ⟨_, _, _, _, r₁, m₁, -, -, -, -, -, hstep, -, hstack⟩ :=
      (h.kept hpause).applyRule (selectsAlways hiter ht hrules)
    obtain ⟨code', r', m', hstep', hbranch, hgoes, -, hsuggestion⟩ :=
      (hb.kept hpause).applyRule hiter ht hrules (h.kept hpause)
    -- both invariants speak of the same step
    obtain ⟨rfl, hr, hu⟩ := Prod.mk.inj (happly.symm.trans hstep') |>.imp id Prod.mk.inj
    obtain ⟨-, hr', hu'⟩ := Prod.mk.inj (hstep'.symm.trans hstep) |>.imp id Prod.mk.inj
    obtain rfl := Option.some.inj hr'
    obtain rfl := Option.some.inj (congrArg Search.inst hu')
    subst hr
    have hroll : ∀ {v : Search (Option Memory) (Option RuleObject)}, v.inst = u.inst →
        v.appliedRules = u.appliedRules →
        BranchInvariant e width m₀ (Search.searchSpaceFinished config
          (Search.rollBackBranch (ruleSystem e rules) env v).1
          (Search.rollBackBranch (ruleSystem e rules) env v).2).2 := by
      intro v hinst happlied
      rw [hu] at hinst happlied
      have hback : BranchInvariant e width m₀ (Search.rollBackBranch (ruleSystem e rules) env v).2 :=
        BranchInvariant.rollBackBranch ⟨t, happlied ▸ hstack⟩ hinst (happlied ▸ hbranch)
      unfold Search.searchSpaceFinished
      split_ifs
      · exact hback.congr rfl rfl rfl
      · exact hback
      · exact hback
    cases code with
    | immediateReturn => exact absurd rfl hgoes
    | «continue» =>
        rw [hu]
        exact ⟨m', rfl, hbranch, nofun⟩
    | continueWithRuleSuggestion =>
        rw [hu]
        refine ⟨m', rfl, hbranch, fun q hq => ?_⟩
        change some q ∈ [] ++ ((some r').map RuleObject.nextRuleSuggestion |>.getD []).map some at hq
        rw [List.nil_append, Option.map_some, Option.getD_some] at hq
        obtain ⟨q', hq', hqq⟩ := List.mem_map.1 hq
        obtain rfl := Option.some.inj hqq
        exact hsuggestion rfl _ hq'
    | endBranchWithSolutionCandidate =>
        unfold Search.handleReturnCode
        dsimp only
        split_ifs
        · rw [hu]
          exact ⟨m', rfl, hbranch, nofun⟩
        · refine hroll ?_ ?_
          all_goals
            unfold Search.checkSolutionCandidate
            dsimp only
            split_ifs <;> rfl
    | cutBranch => exact hroll rfl rfl

/-- **One iteration keeps the third invariant**: a candidate that is recorded ends a branch. -/
theorem AnswerInvariant.advanceIteration (hiter : ∀ m l, (e.iterated m l).Perm l) (ht : t ≠ 0)
    (hw : ∀ f, e.weightFunction f = f.roots.length)
    (hrules : rules = defaultRules e ∨ rules = approximationRules e ∨ rules = basicRuleList e)
    (madeProgressThisCall : Bool) (h : SearchInvariant e width t m₀ s)
    (ha : AnswerInvariant e width m₀ s) :
    AnswerInvariant e width m₀ (Search.advanceIteration (ruleSystem e rules) config env madeProgressThisCall s).2 := by
  obtain ⟨hb, hinc⟩ := ha
  refine ⟨hb.advanceIteration hiter ht hrules madeProgressThisCall h, ?_⟩
  have hpause := Search.kept_pauseCheck env madeProgressThisCall s
  rcases Search.advanceIteration_cases (ruleSystem e rules) config env madeProgressThisCall s with
    ⟨-, heq⟩ | ⟨-, heq⟩ | ⟨-, heq⟩ | ⟨-, -, -, code, rule, u, -, happly, heq⟩
  · rw [heq]
    exact hinc
  · rw [heq]
    exact hinc.kept (Search.kept_timeoutReached env s)
  · rw [heq]
    exact hinc.kept hpause
  · rw [heq]
    obtain ⟨code', r', m', hstep, hbranch, hgoes, hcandidate, -⟩ :=
      (hb.kept hpause).applyRule hiter ht hrules (h.kept hpause)
    obtain ⟨rfl, hr, hu⟩ := Prod.mk.inj (happly.symm.trans hstep) |>.imp id Prod.mk.inj
    subst hr
    have hu₀ : Incumbent width e.fuel m₀ u := by
      rw [hu]
      exact (hinc.kept hpause).congr rfl rfl
    cases code with
    | immediateReturn => exact absurd rfl hgoes
    | «continue» => exact hu₀
    | continueWithRuleSuggestion => exact hu₀.congr rfl rfl
    | endBranchWithSolutionCandidate =>
        unfold Search.handleReturnCode
        dsimp only
        split_ifs
        · exact hu₀
        · obtain ⟨f, hf, hans⟩ := hcandidate rfl
          exact (hu₀.checkSolutionCandidate hw (by rw [hu])
            (by rw [hu]) hbranch hf hans).rollBackBranch.searchSpaceFinished _
    | cutBranch => exact hu₀.rollBackBranch.searchSpaceFinished _

/-- **The second invariant holds in every state of a session.** -/
theorem BranchInvariant.of_session {Fs : List Forest} {X : Finset Label}
    (hm₀ : m₀.IsInstance width e.fuel Fs X) (he : e.Fits X)
    (hrules : rules = defaultRules e ∨ rules = approximationRules e ∨ rules = basicRuleList e)
    {s₀ : Search (Option Memory) (Option RuleObject)} (hs₀ : s₀.Starts m₀)
    (h : Search.Session (ruleSystem e rules) config env s₀ s) : BranchInvariant e width m₀ s := by
  have ht : Fs.length ≠ 0 := fun h => hm₀.nonempty (List.length_eq_zero_iff.1 h)
  induction h with
  | start =>
      refine ⟨m₀, hs₀.inst, ?_, ?_⟩
      · rw [hs₀.appliedRules]
        exact .nil
      · rw [hs₀.applyNext]
        nofun
  | iterate b hsession ih =>
      exact ih.advanceIteration he.iterated ht hrules b (SearchInvariant.of_search hm₀ he hrules hs₀ hsession.reachable)
  | resume _ hinst happlied hnext _ _ ih => exact ih.congr hinst happlied hnext

/-- **The third invariant holds in every state of a session.** -/
theorem AnswerInvariant.of_session {Fs : List Forest} {X : Finset Label}
    (hm₀ : m₀.IsInstance width e.fuel Fs X)
    (he : e.Fits X) (hw : ∀ f, e.weightFunction f = f.roots.length)
    (hrules : rules = defaultRules e ∨ rules = approximationRules e ∨ rules = basicRuleList e)
    {s₀ : Search (Option Memory) (Option RuleObject)} (hs₀ : s₀.Starts m₀)
    (hinc : Incumbent width e.fuel m₀ s₀)
    (h : Search.Session (ruleSystem e rules) config env s₀ s) : AnswerInvariant e width m₀ s := by
  have ht : Fs.length ≠ 0 := fun h => hm₀.nonempty (List.length_eq_zero_iff.1 h)
  induction h with
  | start =>
      have hstart : Search.Session (ruleSystem e rules) config env s₀ s₀ := .start
      exact ⟨BranchInvariant.of_session hm₀ he hrules hs₀ hstart, hinc⟩
  | iterate b hsession ih =>
      exact ih.advanceIteration he.iterated ht hw hrules b
        (SearchInvariant.of_search hm₀ he hrules hs₀ hsession.reachable)
  | resume _ hinst happlied hnext hsol hweight ih =>
      exact ⟨ih.1.congr hinst happlied hnext, ih.2.congr hsol hweight⟩

/-- **The solution in memory**: `finalize` replays the best solution, and comes to a memory that is its own
answer. -/
theorem AnswerInvariant.finalize (rules : List IsApplicableFn)
    (hb : config.boundedDepthSearch = false) (h : SearchInvariant e width t m₀ s)
    (ha : AnswerInvariant e width m₀ s) (hsol : s.solutionBranch ≠ []) :
    ∃ rs m k, Branch width e.fuel m₀ rs m ∧ s.solutionBranch = cloned rs ∧ Answers width e.fuel m m k ∧
      s.context.bestSolutionWeight = ((k : ℚ) : WithTop ℚ) ∧
      (Search.finalize (ruleSystem e rules) config s).inst = some m ∧
      (Search.finalize (ruleSystem e rules) config s).appliedRules = rs ∧
      (Search.finalize (ruleSystem e rules) config s).solutionBranch = rs.reverse := by
  obtain ⟨m, hinst, -, hstack, -⟩ := h
  obtain ⟨-, ⟨hnil, -⟩ | ⟨k, ⟨rs, m', hbranch, -, hsol', hans⟩, hweight⟩⟩ := ha
  · exact absurd hnil hsol
  refine ⟨rs, m', k, hbranch, hsol', hans, hweight, ?_⟩
  have hunwind : Search.unapplyAll (ruleSystem e rules) s.appliedRules s.inst = some m₀ := by
    rw [hinst]
    exact hstack.unapplyAll
  unfold Search.finalize
  rw [if_neg (by rw [hb]; exact Bool.false_ne_true)]
  simp only [Search.unwindAppliedRules, hunwind, hsol', hbranch.replay rules, List.reverse_reverse, and_self]

/-- The clone of a rule that does not branch is the rule as its `unapply` leaves it. -/
theorem Branch.fresh {rs : List (Option RuleObject)} {m : Memory} {fuel : ℕ}
    (h : Branch width fuel m₀ rs m)
    (hplain : ∀ r, some r ∈ rs → r.isBranchingRule = false) :
    rs.map (Option.map fun r => ({ rule := r.rule, branch := r.branch } : RuleObject)) = (cloned rs).reverse := by
  induction h with
  | nil => rfl
  | @cons rs r code m m' _ _ hbranch _ _ _ ih =>
      have hr := hplain r (List.mem_cons_self ..)
      have hclone : r.clone = { rule := r.rule, branch := r.branch } := by
        rw [RuleObject.clone, hr, hbranch hr]
        rfl
      have hrest := ih fun q hq => hplain q (List.mem_cons_of_mem _ hq)
      rw [cloned, List.reverse_reverse, List.map_cons, List.map_cons, hrest, cloned, List.reverse_reverse,
        Option.map_some, Option.map_some, hclone]

end Step

section Runs

variable {e : Surroundings} {width : ℕ} {m₀ : Memory} {Fs : List Forest} {X : Finset Label}
  {rules : List IsApplicableFn} {config : Configuration} {env : Environment}
  {s₀ s : Search (Option Memory) (Option RuleObject)}

/-- **A recorded solution becomes an agreement forest** by `finalize` and `unapplyReductions`. -/
theorem AnswerInvariant.agreementForest {t : ℕ} (hm₀ : m₀.IsInstance width e.fuel Fs X)
    (hb : config.boundedDepthSearch = false) (h : SearchInvariant e width t m₀ s)
    (ha : AnswerInvariant e width m₀ s)
    (hsol : s.solutionBranch ≠ []) :
    ∃ M f F G, (Search.unapplyReductions (ruleSystem e rules) isReduction
        (Search.finalize (ruleSystem e rules) config s)).inst = some M ∧
      M.forests[0]? = some f ∧ Held width e.fuel f G ∧ Fs[0]? = some F ∧ F.Induced G ∧ G.labels = X ∧
      AgreementForest Fs G.blocks ∧ s.context.bestSolutionWeight = ((G.length : ℚ) : WithTop ℚ) := by
  obtain ⟨rs, m, k, hbranch, -, hans, hweight, hinst, happlied, -⟩ := ha.finalize rules hb h hsol
  obtain ⟨M, hM, hloop⟩ := hbranch.unapplyReductions rules hans
  obtain ⟨f, G, F, hf, hheld, hF, hlab, hlen, hind, hagree⟩ :=
    hM.agreementForest hm₀.holds hm₀.labels hm₀.nonempty
  refine ⟨M, f, F, G, ?_, hf, hheld, hF, hind, hlab, hagree, hlen ▸ hweight⟩
  simp only [Search.unapplyReductions, hinst, happlied, hloop]

end Runs

end Maf
