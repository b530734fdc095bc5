/-
# Backtracking

`src/Solver/BranchingSolver.cpp` with the rules of `src/Solver/Rule/*.cpp`.  In every
state that the search reaches, the memory holds valid forests with common labels, the
applied rules lie on a stack whose rules are undone one after the other down to the
memory of the start, and a rule that waits to be applied is ready for this memory
(`SearchInvariant`).  So unapplying restores what the search started with
(`backtracking_restores`), every rule that is selected can be applied, and
`DebugAssertFalseRule` never is (`safetyNet_unreachable`).
-/

import Maf.Rule.Selection

namespace Maf

open Graph RuleObject

namespace Search

variable {σ ρ : Type*} (R : RuleSystem σ ρ) (config : Configuration) (env : Environment)

/-- **The states of a search** that starts in `s₀`, over any number of calls of
`advanceSearch`.  Between two calls the caller may set the pause deadline, the
incumbent and the constants of the certification. -/
inductive Reachable (s₀ : Search σ ρ) : Search σ ρ → Prop
  | start : Reachable s₀ s₀
  | iterate {s : Search σ ρ} (madeProgressThisCall : Bool) :
      Reachable s₀ s → Reachable s₀ (advanceIteration R config env madeProgressThisCall s).2
  | resume {s t : Search σ ρ} : Reachable s₀ s → t.inst = s.inst → t.appliedRules = s.appliedRules →
      t.applyNext = s.applyNext → Reachable s₀ t

end Search

/-- The surroundings fit the instance: the labels stand in the heuristic order, and a
`std::unordered_set` is iterated in some order. -/
structure Surroundings.Fits (e : Surroundings) (X : Finset Label) : Prop where
  order : ∀ x ∈ X, x ∈ e.heuristicLabelOrder
  iterated : ∀ m l, (e.iterated m l).Perm l

/-- **An instance in memory**: valid forests with the same labels. -/
structure Memory.IsInstance (width fuel : ℕ) (m : Memory) (Fs : List Forest) (X : Finset Label) : Prop where
  holds : m.Holds width fuel Fs
  nonempty : Fs ≠ []
  labels : ∀ F ∈ Fs, F.labels = X

/-- `initializeContext`: the labels of forest 0, from left to right. -/
def initializeContext (fuel : ℕ) (m : Memory) : Option (List Label) :=
  (m.read fuel).head?.map fun f0 => f0.subtrees.filterMap Tree.terminalToLabel

/-- The constructor of the solver makes the surroundings fit. -/
theorem Memory.IsInstance.fits {e : Surroundings} {width : ℕ} {m : Memory} {Fs : List Forest} {X : Finset Label}
    (hm : m.IsInstance width e.fuel Fs X) (horder : initializeContext e.fuel m = some e.heuristicLabelOrder)
    (hiter : ∀ m l, (e.iterated m l).Perm l) : e.Fits X := by
  obtain ⟨f0, fs, rfl⟩ := List.exists_cons_of_ne_nil hm.nonempty
  rw [initializeContext, hm.holds.read, List.head?_cons, Option.map_some, Option.some.injEq] at horder
  refine ⟨fun x hx => ?_, hiter⟩
  rw [← horder, Forest.mem_terminals, hm.labels f0 (List.mem_cons_self ..)]
  exact hx

/-- Forests, stored from scratch. -/
def Memory.ofForests (width : ℕ) (Fs : List Forest) : Memory := ⟨Fs.map (Forest.toStore width), ∅⟩

/-- Valid forests over the same labels are an instance in memory. -/
theorem Memory.isInstance_ofForests {width fuel : ℕ} {Fs : List Forest} {X : Finset Label} (hne : Fs ≠ [])
    (hFs : ∀ F ∈ Fs, F.Valid ∧ (∀ t ∈ F, Bitset.Within width t.subtreeTerminals) ∧
      F.ptrs.length ≤ fuel ∧ F.labels = X) :
    (Memory.ofForests width Fs).IsInstance width fuel Fs X := by
  refine ⟨⟨List.length_map _, fun {i s F} hs hF => ?_⟩, hne, fun F hF => (hFs F hF).2.2.2⟩
  obtain ⟨hv, hw, hlen, -⟩ := hFs F (List.mem_of_getElem? hF)
  rw [Memory.ofForests, List.getElem?_map, hF, Option.map_some] at hs
  obtain rfl := Option.some.inj hs
  exact ⟨Forest.toStore_wellFormed hv hw, Forest.toStore_indexed hv, hlen⟩

/-- A search on the memory `m₀` before its first iteration. -/
structure Search.Starts (s₀ : Search (Option Memory) (Option RuleObject)) (m₀ : Memory) : Prop where
  inst : s₀.inst = some m₀
  appliedRules : s₀.appliedRules = []
  applyNext : s₀.applyNext = []

section Invariant

variable {e : Surroundings} {width t : ℕ} {m₀ : Memory}

/-- The memory holds `t` forests. -/
def Sound (e : Surroundings) (width t : ℕ) (m : Memory) : Prop := ∃ X Fs, Holding e width t X m Fs

/-- A rule can be applied to the memory. -/
def ReadyFor (e : Surroundings) (width t : ℕ) (r : RuleObject) (m : Memory) : Prop :=
  ∃ X, (∀ x ∈ X, x ∈ e.heuristicLabelOrder) ∧ r.Ready width e.fuel t X m

/-- Memory over fewer labels is sound. -/
theorem sound_of_over {X X' : Finset Label} {m : Memory} (horder : ∀ x ∈ X, x ∈ e.heuristicLabelOrder) (hsub : X' ⊆ X)
    (h : m.Over width e.fuel t X') : Sound e width t m := by
  obtain ⟨Fs, hm, hlen, hX⟩ := h
  exact ⟨X', Fs, hm, hlen, hX, fun x hx => horder x (hsub hx)⟩

/-- **The stack of applied rules**, the last one first, over the memory `m₀` of the
start: each rule gives back the memory it was applied to, and is then ready for its
next branch, if it has one. -/
inductive Stacked (e : Surroundings) (width t : ℕ) (m₀ : Memory) : List (Option RuleObject) → Memory → Prop
  | nil : Stacked e width t m₀ [] m₀
  | cons {rs : List (Option RuleObject)} {r : RuleObject} {m m' : Memory} :
      Stacked e width t m₀ rs m → Sound e width t m →
      r.unapply e.fuel m' = some ({ rule := r.rule, branch := r.branch }, m) →
      (r.isBranchingRule = true → r.isFullyExplored = false →
        ReadyFor e width t { rule := r.rule, branch := r.branch } m) →
      Stacked e width t m₀ (some r :: rs) m'

/-- What waits to be applied. -/
def Queued (e : Surroundings) (width t : ℕ) (m : Memory) (next : List (Option RuleObject)) : Prop :=
  next = [] ∨ ∃ r, next = [some r] ∧ ReadyFor e width t r m

/-- **The invariant of the search.** -/
def SearchInvariant (e : Surroundings) (width t : ℕ) (m₀ : Memory) (s : Search (Option Memory) (Option RuleObject)) :
    Prop :=
  ∃ m, s.inst = some m ∧ Sound e width t m ∧ Stacked e width t m₀ s.appliedRules m ∧ Queued e width t m s.applyNext

/-- The invariant depends on the instance, the stack and the queue only. -/
theorem SearchInvariant.congr {s u : Search (Option Memory) (Option RuleObject)} (h : SearchInvariant e width t m₀ s)
    (hinst : u.inst = s.inst) (happlied : u.appliedRules = s.appliedRules) (hnext : u.applyNext = s.applyNext) :
    SearchInvariant e width t m₀ u := by
  obtain ⟨m, hm, hsound, hstack, hqueue⟩ := h
  exact ⟨m, hinst.trans hm, hsound, happlied ▸ hstack, hnext ▸ hqueue⟩

section Undo

variable {rules : List IsApplicableFn} {rs : List (Option RuleObject)} {m : Memory}

/-- Whether a rule branches does not depend on its stack. -/
theorem isBranchingRule_of_rule {r r' : RuleObject} (h : r.rule = r'.rule) :
    r.isBranchingRule = r'.isBranchingRule := by
  rw [isBranchingRule, isBranchingRule, maxBranch, maxBranch, h]

/-- Whether a rule is explored depends on its branch only. -/
theorem isFullyExplored_of_rule {r r' : RuleObject} (h : r.rule = r'.rule) (hb : r.branch = r'.branch) :
    r.isFullyExplored = r'.isFullyExplored := by
  rw [isFullyExplored, isFullyExplored, maxBranch, maxBranch, h, hb]

/-- **Unapplying the whole stack** gives back the memory of the start. -/
theorem Stacked.unapplyAll (h : Stacked e width t m₀ rs m) :
    Search.unapplyAll (ruleSystem e rules) rs (some m) = some m₀ := by
  induction h with
  | nil => rfl
  | @cons rs r m m' _ _ hundo _ ih =>
      rw [Search.unapplyAll]
      have hstep : ((ruleSystem e rules).unapply (some r) (some m')).2 = some m := by
        simp only [ruleSystem, Option.bind_eq_bind, Option.bind_some, hundo]
      rw [hstep, ih]

/-- **Rolling back** stops at a rule that is ready for its next branch, or at the
start. -/
theorem Stacked.rollBackLoop (h : Stacked e width t m₀ rs m) (hm : Sound e width t m) :
    ∃ b rs' next m', Search.rollBackLoop (ruleSystem e rules) rs (some m) = (b, rs', next, some m') ∧
      Sound e width t m' ∧ Stacked e width t m₀ rs' m' ∧ Queued e width t m' next ∧ (b = true → rs' = []) := by
  induction h with
  | nil => exact ⟨true, [], [], m₀, rfl, hm, .nil, Or.inl rfl, fun _ => rfl⟩
  | @cons rs r m m' hstack hsound hundo hagain ih =>
      have hstep : (ruleSystem e rules).unapply (some r) (some m') =
          (some { rule := r.rule, branch := r.branch }, some m) := by
        simp only [ruleSystem, Option.bind_eq_bind, Option.bind_some, hundo]
      have hbr : (ruleSystem e rules).isBranchingRule (some { rule := r.rule, branch := r.branch }) =
          r.isBranchingRule :=
        isBranchingRule_of_rule rfl
      have hfull : (ruleSystem e rules).isFullyExplored (some { rule := r.rule, branch := r.branch }) =
          r.isFullyExplored :=
        isFullyExplored_of_rule rfl rfl
      rw [Search.rollBackLoop, hstep]
      dsimp only
      rw [hbr, hfull]
      split_ifs with hmore
      · rw [Bool.and_eq_true, Bool.not_eq_true'] at hmore
        exact ⟨false, rs, _, m, rfl, hsound, hstack, Or.inr ⟨_, rfl, hagain hmore.1 hmore.2⟩,
          fun h => absurd h Bool.false_ne_true⟩
      · exact ih hsound

end Undo

section Step

variable {rules : List IsApplicableFn} {config : Configuration} {env : Environment}
  {s : Search (Option Memory) (Option RuleObject)}

/-- **The rules of the list** always select one that fits. -/
def SelectsAlways (e : Surroundings) (width t : ℕ) (rules : List IsApplicableFn) : Prop :=
  ∀ c m X Fs, Holding e width t X m Fs → Selects X Fs c m rules

/-- A rule that fits is ready. -/
theorem ready_of_fits {X : Finset Label} {m : Memory} {Fs : List Forest} {rule : Rule} (h : Holding e width t X m Fs)
    (hfit : rule.Fits 0 Fs X) : RuleObject.Ready width e.fuel t X { rule := rule } m :=
  ⟨rfl, fun hbr => of_decide_eq_true hbr, Fs, h.holds, h.length, h.labels, hfit⟩

/-- **The next rule can be applied**, and is undone by its `unapply`. -/
theorem SearchInvariant.applyRule (hsel : SelectsAlways e width t rules) (h : SearchInvariant e width t m₀ s) :
    ∃ X m r code r' m', s.inst = some m ∧ (∀ x ∈ X, x ∈ e.heuristicLabelOrder) ∧
      (Search.nextRule (ruleSystem e rules) s).1 = some r ∧ r.rule ≠ .debugAssertFalse ∧
      Applied width e.fuel t X r m code r' m' ∧ Search.applyRule (ruleSystem e rules) s =
        (code, some r', { s with inst := some m', appliedRules := some r' :: s.appliedRules, applyNext := [] }) ∧
      Sound e width t m' ∧ Stacked e width t m₀ (some r' :: s.appliedRules) m' := by
  obtain ⟨m, hinst, hsound, hstack, hqueue⟩ := h
  -- the rule that is taken from the queue or selected
  obtain ⟨X, r, horder, hready, hnext⟩ : ∃ X r, (∀ x ∈ X, x ∈ e.heuristicLabelOrder) ∧ r.Ready width e.fuel t X m ∧
      Search.nextRule (ruleSystem e rules) s = (some r, { s with applyNext := [] }) := by
    rcases hqueue with hnil | ⟨r, hone, X, horder, hready⟩
    · obtain ⟨X, Fs, hhold⟩ := hsound
      obtain ⟨rule, hfirst, hfit⟩ := hsel s.context m X Fs hhold
      refine ⟨X, { rule := rule }, hhold.order, ready_of_fits hhold hfit, ?_⟩
      have happlicable : (ruleSystem e rules).isApplicable s.context s.inst = some { rule := rule } := by
        simp only [ruleSystem, hinst, Option.bind_eq_bind, Option.bind_some, hfirst]
      unfold Search.nextRule
      rw [hnil]
      dsimp only
      rw [happlicable]
      cases s
      cases hnil
      rfl
    · exact ⟨X, r, horder, hready, by unfold Search.nextRule; rw [hone]⟩
  obtain ⟨code, r', m', happ⟩ := apply_spec hready
  obtain ⟨X', hsub, hover⟩ := happ.shared
  refine ⟨X, m, r, code, r', m', hinst, horder, by rw [hnext], hready.rule_ne, happ, ?_,
    sound_of_over horder hsub hover, .cons hstack hsound ?_ fun hbr hnot => ?_⟩
  · unfold Search.applyRule
    rw [hnext]
    simp only [ruleSystem, hinst, Option.bind_eq_bind, Option.bind_some, happ.applied]
  · rw [happ.rule]
    exact happ.undone
  · rw [happ.rule]
    exact ⟨X, horder, happ.again hbr hnot⟩

/-- **An iteration goes well**: the invariant holds, and the search space is exhausted
only with all rules rolled back. -/
def GoesWell (e : Surroundings) (width t : ℕ) (m₀ : Memory)
    (p : Option RunResult × Search (Option Memory) (Option RuleObject)) : Prop :=
  SearchInvariant e width t m₀ p.2 ∧ (p.1 = some .exhausted → p.2.appliedRules = [])

/-- The end of the search space changes the context only. -/
theorem SearchInvariant.searchSpaceFinished {b : Bool} (h : SearchInvariant e width t m₀ s)
    (hend : b = true → s.appliedRules = []) : GoesWell e width t m₀ (Search.searchSpaceFinished config b s) := by
  unfold Search.searchSpaceFinished
  split_ifs with hb
  · exact ⟨h.congr rfl rfl rfl, nofun⟩
  · exact ⟨h, fun _ => hend hb⟩
  · exact ⟨h, nofun⟩

/-- **A branch is rolled back.** -/
theorem SearchInvariant.rollBackBranch (hm₀ : Sound e width t m₀) {m : Memory} (hinst : s.inst = some m)
    (hm : Sound e width t m) (hstack : Stacked e width t m₀ s.appliedRules m) :
    SearchInvariant e width t m₀ (Search.rollBackBranch (ruleSystem e rules) env s).2 ∧
      ((Search.rollBackBranch (ruleSystem e rules) env s).1 = true →
        (Search.rollBackBranch (ruleSystem e rules) env s).2.appliedRules = []) := by
  have htime : (Search.timeoutReached env s).2.inst = s.inst ∧
      (Search.timeoutReached env s).2.appliedRules = s.appliedRules := by
    unfold Search.timeoutReached
    cases env.timeoutFlag <;> exact ⟨rfl, rfl⟩
  unfold Search.rollBackBranch
  dsimp only
  split_ifs
  · refine ⟨⟨m₀, ?_, hm₀, .nil, Or.inl rfl⟩, fun _ => rfl⟩
    simp only [Search.unwindAppliedRules, htime, hinst]
    exact hstack.unapplyAll
  · obtain ⟨b, rs', next, m', hloop, hm', hstack', hqueue, hend⟩ := hstack.rollBackLoop hm
    rw [htime.1, htime.2, hinst, hloop]
    exact ⟨⟨m', rfl, hm', hstack', hqueue⟩, hend⟩

/-- **One iteration keeps the invariant.** -/
theorem SearchInvariant.advanceIteration (hsel : SelectsAlways e width t rules) (hm₀ : Sound e width t m₀)
    (madeProgressThisCall : Bool) (h : SearchInvariant e width t m₀ s) :
    GoesWell e width t m₀ (Search.advanceIteration (ruleSystem e rules) config env madeProgressThisCall s) := by
  have htime : ∀ {u : Search (Option Memory) (Option RuleObject)}, SearchInvariant e width t m₀ u →
      SearchInvariant e width t m₀ (Search.timeoutReached env u).2 := by
    intro u hu
    unfold Search.timeoutReached
    cases env.timeoutFlag
    · exact hu
    · exact hu.congr rfl rfl rfl
  have hpause : ∀ {u : Search (Option Memory) (Option RuleObject)}, SearchInvariant e width t m₀ u →
      SearchInvariant e width t m₀ (Search.pauseCheck env madeProgressThisCall u).2 := by
    intro u hu
    unfold Search.pauseCheck
    cases madeProgressThisCall
    · exact hu
    · unfold Search.pauseReached
      by_cases hp : u.pauseDeadlinePassed
      · rw [if_pos rfl, if_pos hp]
        exact hu
      · rw [if_pos rfl, if_neg hp]
        cases u.pauseDeadline with
        | none => exact hu
        | some d =>
            dsimp only
            split_ifs
            · exact hu.congr rfl rfl rfl
            · exact hu.congr rfl rfl rfl
  rcases Search.advanceIteration_cases (ruleSystem e rules) config env madeProgressThisCall s with
    ⟨-, heq⟩ | ⟨-, heq⟩ | ⟨-, heq⟩ | ⟨-, -, -, code, rule, u, -, happly, heq⟩
  · rw [heq]
    exact ⟨h, nofun⟩
  · rw [heq]
    exact ⟨htime h, nofun⟩
  · rw [heq]
    exact ⟨hpause (htime h), nofun⟩
  · rw [heq]
    obtain ⟨X, m, r, code', r', m', hinst, horder, -, -, happ, happly', hm', hstack⟩ :=
      (hpause (htime h)).applyRule hsel
    obtain ⟨rfl, hr, hu⟩ := Prod.mk.inj (happly.symm.trans happly') |>.imp id Prod.mk.inj
    subst hr
    have hroll : ∀ {v : Search (Option Memory) (Option RuleObject)}, v.inst = u.inst → v.appliedRules = u.appliedRules →
        GoesWell e width t m₀ (Search.searchSpaceFinished config (Search.rollBackBranch (ruleSystem e rules) env v).1
          (Search.rollBackBranch (ruleSystem e rules) env v).2) := by
      intro v hv₁ hv₂
      have hinst' : v.inst = some m' := by rw [hv₁, hu]
      have hstack' : Stacked e width t m₀ v.appliedRules m' := by
        rw [hv₂, hu]
        exact hstack
      obtain ⟨hinv, hend⟩ := SearchInvariant.rollBackBranch hm₀ hinst' hm' hstack'
      exact hinv.searchSpaceFinished hend
    cases code with
    | immediateReturn => exact absurd rfl happ.goesOn
    | «continue» =>
        rw [hu]
        exact ⟨⟨m', rfl, hm', hstack, Or.inl rfl⟩, nofun⟩
    | continueWithRuleSuggestion =>
        rw [hu]
        refine ⟨⟨m', rfl, hm', hstack, ?_⟩, nofun⟩
        obtain ⟨X', hsub, hsugg⟩ := happ.suggestion rfl
        change Queued e width t m' ([] ++ ((some r').map RuleObject.nextRuleSuggestion |>.getD []).map some)
        rw [List.nil_append, Option.map_some, Option.getD_some]
        unfold RuleObject.nextRuleSuggestion at hsugg ⊢
        cases hr : r'.rule with
        | abcBranching a c bs =>
            rw [hr] at hsugg
            exact Or.inr ⟨_, rfl, X', fun x hx => horder x (hsub hx), hsugg _ (List.mem_singleton_self _)⟩
        | _ => exact Or.inl rfl
    | endBranchWithSolutionCandidate =>
        unfold Search.handleReturnCode
        dsimp only
        split_ifs
        · rw [hu]
          exact ⟨⟨m', rfl, hm', hstack, Or.inl rfl⟩, nofun⟩
        · refine hroll ?_ ?_
          all_goals
            unfold Search.checkSolutionCandidate
            dsimp only
            split_ifs <;> rfl
    | cutBranch => exact hroll rfl rfl

/-- **The invariant holds in every state of a search.** -/
theorem SearchInvariant.of_reachable (hsel : SelectsAlways e width t rules) (hm₀ : Sound e width t m₀)
    {s₀ : Search (Option Memory) (Option RuleObject)} (h₀ : SearchInvariant e width t m₀ s₀)
    (h : Search.Reachable (ruleSystem e rules) config env s₀ s) : SearchInvariant e width t m₀ s := by
  induction h with
  | start => exact h₀
  | iterate b _ ih => exact (ih.advanceIteration hsel hm₀ b).1
  | resume _ hinst happlied hnext ih => exact ih.congr hinst happlied hnext

end Step

end Invariant

section Runs

variable {e : Surroundings} {width : ℕ} {m₀ : Memory} {Fs : List Forest} {X : Finset Label}
  {rules : List IsApplicableFn} {config : Configuration} {env : Environment}
  {s₀ s : Search (Option Memory) (Option RuleObject)}

/-- An instance is sound. -/
theorem Memory.IsInstance.sound (hm₀ : m₀.IsInstance width e.fuel Fs X) (he : e.Fits X) : Sound e width Fs.length m₀ :=
  ⟨X, Fs, hm₀.holds, rfl, hm₀.labels, he.order⟩

/-- **Each of the three rule lists selects a rule that fits.** -/
theorem selectsAlways {t : ℕ} (hiter : ∀ m l, (e.iterated m l).Perm l) (ht : t ≠ 0)
    (hrules : rules = defaultRules e ∨ rules = approximationRules e ∨ rules = basicRuleList e) :
    SelectsAlways e width t rules := by
  intro c m X Fs h
  have hne : Fs ≠ [] := by
    rintro rfl
    exact ht h.length.symm
  rcases hrules with rfl | rfl | rfl
  · exact selects_defaultRules h hne hiter c
  · exact selects_approximationRules h hne hiter c
  · exact selects_basicRuleList h hne hiter c

/-- **A search on an instance** keeps the invariant. -/
theorem SearchInvariant.of_search (hm₀ : m₀.IsInstance width e.fuel Fs X) (he : e.Fits X)
    (hrules : rules = defaultRules e ∨ rules = approximationRules e ∨ rules = basicRuleList e) (hs₀ : s₀.Starts m₀)
    (h : Search.Reachable (ruleSystem e rules) config env s₀ s) : SearchInvariant e width Fs.length m₀ s := by
  have hsel : SelectsAlways e width Fs.length rules :=
    selectsAlways he.iterated (fun h => hm₀.nonempty (List.length_eq_zero_iff.1 h)) hrules
  refine SearchInvariant.of_reachable hsel (hm₀.sound he) ⟨m₀, hs₀.inst, hm₀.sound he, ?_, Or.inl hs₀.applyNext⟩ h
  rw [hs₀.appliedRules]
  exact .nil

/-- Two trees with five labels, the first cherry of the one parted in the other. -/
def fiveLabels : List Forest :=
  [[.node 0 (.node 1 (.node 2 (.leaf 3 1 ∅) (.leaf 4 2 ∅)) (.leaf 5 3 ∅)) (.node 6 (.leaf 7 4 ∅) (.leaf 8 5 ∅))],
    [.node 0 (.node 1 (.leaf 2 1 ∅) (.node 3 (.leaf 4 3 ∅) (.leaf 5 4 ∅))) (.node 6 (.leaf 7 2 ∅) (.leaf 8 5 ∅))]]

/-- The surroundings of a search on these. -/
def fiveLabelsSurroundings : Surroundings where
  fuel := 9
  heuristicLabelOrder := [1, 2, 3, 4, 5]
  weightFunction f := f.roots.length
  boundedDepthSearch := false
  iterated _ labels := labels

/-- The two trees with five labels are an instance. -/
theorem isInstance_fiveLabels : (Memory.ofForests 1 fiveLabels).IsInstance 1 fiveLabelsSurroundings.fuel fiveLabels
    {1, 2, 3, 4, 5} :=
  Memory.isInstance_ofForests (by decide) (by decide)

/-- The surroundings fit the instance. -/
theorem fits_fiveLabels : fiveLabelsSurroundings.Fits {1, 2, 3, 4, 5} :=
  isInstance_fiveLabels.fits (by rw [initializeContext, isInstance_fiveLabels.holds.read]; decide)
    fun _ l => List.Perm.refl l

/-- **Backtracking restores everything.**  In every state of a search with the default
rules, and with the next rule applied, to its end or left early, unapplying the
applied rules gives back the memory of the start. -/
theorem backtracking_restores (hm₀ : m₀.IsInstance width e.fuel Fs X) (he : e.Fits X) (hs₀ : s₀.Starts m₀)
    (h : Search.Reachable (ruleSystem e (defaultRules e)) config env s₀ s) :
    (Search.unwindAppliedRules (ruleSystem e (defaultRules e)) s).inst = some m₀ ∧
      (Search.unwindAppliedRules (ruleSystem e (defaultRules e))
        (Search.applyRule (ruleSystem e (defaultRules e)) s).2.2).inst = some m₀ := by
  have hinv := SearchInvariant.of_search hm₀ he (Or.inl rfl) hs₀ h
  have hne : Fs.length ≠ 0 := fun h => hm₀.nonempty (List.length_eq_zero_iff.1 h)
  obtain ⟨X', m, r, code, r', m', -, -, -, -, -, happly, -, hstack'⟩ :=
    hinv.applyRule (selectsAlways he.iterated hne (Or.inl rfl))
  obtain ⟨m, hinst, -, hstack, -⟩ := hinv
  refine ⟨?_, ?_⟩
  · simp only [Search.unwindAppliedRules, hinst]
    exact hstack.unapplyAll
  · rw [happly]
    exact hstack'.unapplyAll

/-- One rule is applied to the five labels and unwound. -/
theorem backtracking_restores_fiveLabels :
    (Search.unwindAppliedRules (ruleSystem fiveLabelsSurroundings (defaultRules fiveLabelsSurroundings))
      (Search.advanceIteration (ruleSystem fiveLabelsSurroundings (defaultRules fiveLabelsSurroundings)) {}
        { clock := fun _ => 0 } false { inst := some (Memory.ofForests 1 fiveLabels), context := {} }).2).inst =
      some (Memory.ofForests 1 fiveLabels) :=
  (backtracking_restores isInstance_fiveLabels fits_fiveLabels ⟨rfl, rfl, rfl⟩ (.iterate false .start)).1

/-- **The safety net is unreachable.**  In every state of a search with the default or
the approximation rules, a sibling pair is found as long as forest 0 has a tree with
two terminals; the next rule is not `DebugAssertFalseRule`, its `apply` throws nothing
and does not return `ImmediateReturn`, so the search is exhausted only with all rules
rolled back. -/
theorem safetyNet_unreachable (hm₀ : m₀.IsInstance width e.fuel Fs X) (he : e.Fits X)
    (hrules : rules = defaultRules e ∨ rules = approximationRules e) (hs₀ : s₀.Starts m₀)
    (h : Search.Reachable (ruleSystem e rules) config env s₀ s) :
    ∃ m f0 fs, s.inst = some m ∧ m.read e.fuel = f0 :: fs ∧
      ((∃ u ∈ f0, 2 ≤ u.labels.card) → ∃ a c pa ma pc mc,
        SiblingRuleFactory.getSiblings e.heuristicLabelOrder f0 = some (a, c) ∧
        f0.sibling (.leaf pa a ma) = some (.leaf pc c mc)) ∧
      (∃ r code r' m', (Search.nextRule (ruleSystem e rules) s).1 = some r ∧ r.rule ≠ .debugAssertFalse ∧
        r.apply e.fuel m = some (code, r', m') ∧ code ≠ .immediateReturn) ∧
      ∀ madeProgressThisCall,
        (Search.advanceIteration (ruleSystem e rules) config env madeProgressThisCall s).1 = some .exhausted →
        (Search.advanceIteration (ruleSystem e rules) config env madeProgressThisCall s).2.appliedRules = [] := by
  have hrules' : rules = defaultRules e ∨ rules = approximationRules e ∨ rules = basicRuleList e :=
    hrules.imp_right Or.inl
  have hinv := SearchInvariant.of_search hm₀ he hrules' hs₀ h
  have hne : Fs.length ≠ 0 := fun h => hm₀.nonempty (List.length_eq_zero_iff.1 h)
  have hsel : SelectsAlways e width Fs.length rules := selectsAlways he.iterated hne hrules'
  obtain ⟨X₁, m', r, code, r', m'', hinst', -, hnext, hrule, happ, -⟩ := hinv.applyRule hsel
  have hwell : ∀ b, GoesWell e width Fs.length m₀ (Search.advanceIteration (ruleSystem e rules) config env b s) :=
    hinv.advanceIteration hsel (hm₀.sound he)
  obtain ⟨m, hinst, ⟨X', Gs, hhold⟩, -⟩ := hinv
  obtain rfl : m' = m := Option.some.inj (hinst'.symm.trans hinst)
  obtain ⟨f0, fs, rfl⟩ := List.exists_cons_of_ne_nil (l := Gs) fun hnil => hne (by rw [← hhold.length, hnil]; rfl)
  refine ⟨m', f0, fs, hinst, hhold.holds.read, fun ⟨u, hu, hcard⟩ => ?_,
    ⟨r, code, r', m'', hnext, hrule, happ.applied, happ.goesOn⟩, fun b => (hwell b).2⟩
  have hv := (hhold.valid f0 (List.mem_cons_self ..)).1
  have hnode : u.isTerminal = false := by
    cases u with
    | leaf p x m => rw [Tree.labels, Finset.card_singleton] at hcard; omega
    | node p l r => rfl
  have horder : ∀ x ∈ f0.labels, x ∈ e.heuristicLabelOrder := fun x hx =>
    hhold.order x (hhold.labels f0 (List.mem_cons_self ..) ▸ hx)
  obtain ⟨a, c, hget⟩ := SiblingRuleFactory.exists_getSiblings hv horder hu hnode
  obtain ⟨pa, ma, pc, mc, hsib⟩ := SiblingRuleFactory.sibling_of_getSiblings hget
  exact ⟨a, c, pa, ma, pc, mc, hget, hsib⟩

/-- The first tree with five labels has a sibling pair. -/
theorem safetyNet_unreachable_fiveLabels :
    ∃ a c pa ma pc mc, SiblingRuleFactory.getSiblings [1, 2, 3, 4, 5] fiveLabels[0] = some (a, c) ∧
      fiveLabels[0].sibling (.leaf pa a ma) = some (.leaf pc c mc) := by
  have hreach : Search.Reachable (ruleSystem fiveLabelsSurroundings (defaultRules fiveLabelsSurroundings)) {}
      { clock := fun _ => 0 } { inst := some (Memory.ofForests 1 fiveLabels), context := {} }
      { inst := some (Memory.ofForests 1 fiveLabels), context := {} } := .start
  obtain ⟨m, f0, fs, hinst, hread, hsib, -⟩ :=
    safetyNet_unreachable isInstance_fiveLabels fits_fiveLabels (Or.inl rfl) ⟨rfl, rfl, rfl⟩ hreach
  obtain rfl := Option.some.inj hinst
  rw [isInstance_fiveLabels.holds.read] at hread
  obtain ⟨rfl, -⟩ := List.cons.inj hread
  exact hsib ⟨_, List.mem_cons_self .., by decide⟩

end Runs

end Maf
