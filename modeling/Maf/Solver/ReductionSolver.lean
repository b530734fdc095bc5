/-
# The reductions to a fixpoint, and back

`src/Solver/ReductionSolver.cpp`.  `solve` applies `SubtreeReductionRule` and `ChainReductionRule` in
turn until neither applies; `unapplyReductions` unapplies the rules in reverse order.

Every action takes a node away, so the loop ends (`exists_solve`): all forests still have the same
terminals and no cherry in common.  Undoing all actions gives the instance back as it was, node for
node (`solve_unapplyReductions`), however the collapsed terminals and the chains overlap.

The orders in which the maps are iterated are parameters, which may differ from round to round, and
the loops have fuel.  The actions compare children and roots by their smallest terminals, and
`__builtin_ctzll(0)` is read as `64` there (`Bitset.ctz`).
-/

import Maf.Rule.SubtreeOptimum

namespace Maf

open Graph UndoStack

namespace SubtreeReductionRule

section Fuel

variable {width depth depth' fuel fuel' : ℕ} {forests : List Forest}

/-- More fuel changes nothing. -/
theorem addAncestorSeenDiffNodes_mono (hdepth : depth ≤ depth') {nodes : List Cluster.Node}
    {seen r : Finset Cluster.Node} (h : addAncestorSeenDiffNodes forests depth nodes seen = some r) :
    addAncestorSeenDiffNodes forests depth' nodes seen = some r := by
  induction depth generalizing depth' nodes seen with
  | zero => cases h
  | succ depth ih =>
      obtain ⟨depth', rfl⟩ := Nat.exists_eq_succ_of_ne_zero (show depth' ≠ 0 by omega)
      rw [addAncestorSeenDiffNodes] at h ⊢
      dsimp only at h ⊢
      split_ifs at h ⊢ with hparents
      · exact h
      · exact ih (by omega) h

/-- More fuel does not change what is recorded. -/
theorem pushMaximum_mono (hdepth : depth ≤ depth') {current : List Cluster.Node} {s r : Search}
    (h : pushMaximum forests depth current s = some r) : pushMaximum forests depth' current s = some r := by
  obtain ⟨diff, hdiff, hr⟩ := Option.bind_eq_some_iff.1 h
  exact Option.bind_eq_some_iff.2 ⟨diff, addAncestorSeenDiffNodes_mono hdepth hdiff, hr⟩

/-- More fuel does not change a visit. -/
theorem visit_mono (hdepth : depth ≤ depth') {current : List Cluster.Node} {s r : Search}
    (h : visit width forests depth current s = some r) : visit width forests depth' current s = some r := by
  have hpush : ∀ {x : Search}, pushMaximum forests depth current s = some x →
      pushMaximum forests depth' current s = some x :=
    fun h => pushMaximum_mono hdepth h
  rw [visit] at h ⊢
  simp only [Option.bind_eq_bind] at h ⊢
  split_ifs at h ⊢ with hroot
  · exact hpush h
  · obtain ⟨siblings, hsiblings, h⟩ := Option.bind_eq_some_iff.1 h
    refine Option.bind_eq_some_iff.2 ⟨siblings, hsiblings, ?_⟩
    split_ifs at h ⊢ with hall hnone hdiff
    · obtain ⟨compareSibling, hcompare, h⟩ := Option.bind_eq_some_iff.1 h
      refine Option.bind_eq_some_iff.2 ⟨compareSibling, hcompare, ?_⟩
      split_ifs at h ⊢ with hsame
      · exact h
      · exact hpush h
    · exact h
    · exact hpush h
    · exact hpush h

/-- More fuel does not change the loop. -/
theorem run_mono (hdepth : depth ≤ depth') (hfuel : fuel ≤ fuel') {s r : Search}
    (h : run width forests depth fuel s = some r) : run width forests depth' fuel' s = some r := by
  induction fuel generalizing fuel' s with
  | zero => cases h
  | succ fuel ih =>
      obtain ⟨fuel', rfl⟩ := Nat.exists_eq_succ_of_ne_zero (show fuel' ≠ 0 by omega)
      cases hqueue : s.queue with
      | nil =>
          simp only [run, hqueue] at h ⊢
          exact h
      | cons current queue =>
          simp only [run, hqueue] at h ⊢
          obtain ⟨s', hs', h⟩ := Option.bind_eq_some_iff.1 h
          exact Option.bind_eq_some_iff.2 ⟨s', visit_mono hdepth hs', ih (by omega) h⟩

/-- **The search gives the same result with more fuel.** -/
theorem isApplicable_mono (hfuel : fuel ≤ fuel') {labels : List Label} {r : Option (List (ℕ × List Tree))}
    (h : isApplicable width fuel labels forests = some r) : isApplicable width fuel' labels forests = some r := by
  rw [isApplicable] at h ⊢
  simp only [Option.bind_eq_bind] at h ⊢
  split_ifs at h ⊢ with hone
  · exact h
  · obtain ⟨s, hs, h⟩ := Option.bind_eq_some_iff.1 h
    obtain ⟨s', hs', h⟩ := Option.bind_eq_some_iff.1 h
    exact Option.bind_eq_some_iff.2 ⟨s, hs, Option.bind_eq_some_iff.2 ⟨s', run_mono hfuel hfuel hs', h⟩⟩

end Fuel

section Search

open Forest (IsCommon IsMaximalCommon)

variable {width : ℕ} {forests : List Forest} {F : Forest} {labels : List Label} {L : List Tree}
    {maximum : List (List Cluster.Node)}

/-- **The search ends**, with the maximal common subtrees of the first forest. -/
theorem exists_search (hI : IsInstance width forests) (h₀ : forests[0]? = some F)
    (hlabels : ∀ x, x ∈ labels ↔ (F.labelToTerminal x).isSome) :
    ∃ fuel s s' L, fill forests labels = some s ∧ run width forests fuel fuel s = some s' ∧
      List.Forall₂ (IsTuple forests) L s'.maximum ∧ L.Nodup ∧ ∀ v, v ∈ L ↔ IsMaximalCommon F forests v := by
  obtain ⟨s, P, Q, hfill, hinv⟩ := fill_spec hI h₀ hlabels
  let size := (forests.map fun G => G.subtrees.length).sum
  have hsize : ∀ n, Cluster.IsNode forests n → n.2.subtrees.length ≤ size := fun n ⟨G, hG, hn⟩ =>
    (Forest.length_subtrees_le hn).trans
      (List.le_sum_of_mem (List.mem_map_of_mem (f := fun G : Forest => G.subtrees.length) (List.mem_of_getElem? hG)))
  let fuel := size + measure F P Q * (F.subtrees.length + 1) + s.queue.length + 1
  obtain ⟨s', P', L, hrun, hend⟩ := run_spec hI h₀ fuel hsize (by omega : size < fuel) hinv (by
    by_cases hnil : s.queue = []
    · exact Or.inl ⟨hnil, by omega⟩
    · obtain ⟨before, t, after, hqueue, hwaits⟩ := hinv.exists_decided hI h₀ hnil
      have hlen := congrArg List.length hqueue
      rw [List.length_append, List.length_cons] at hlen
      exact Or.inr ⟨before, t, after, hqueue, hwaits, by omega⟩)
  exact ⟨fuel, s, s', L, hfill, hrun, hend.maximum, hend.nodup, hend.mem_iff hI h₀⟩

/-- The lists of all forests. -/
theorem exists_lists (hI : IsInstance width forests) (h₀ : forests[0]? = some F)
    (hmaximum : List.Forall₂ (IsTuple forests) L maximum) (hnodup : L.Nodup)
    (hL : ∀ v, v ∈ L ↔ IsMaximalCommon F forests v) :
    ∃ lists, ((List.range forests.length).mapM fun i => (subtreesOfForest maximum i).map fun l => (i, l)) = some lists ∧
      IsReduction forests lists ∧ ∀ p ∈ lists, p.2.length = (L.filter fun n => !n.isTerminal).length := by
  obtain ⟨lists, hlists⟩ := Scan.exists_mapM (l := List.range forests.length)
    (f := fun i => (subtreesOfForest maximum i).map fun l => (i, l)) fun i hi => by
      obtain ⟨nodes, hnodes, -⟩ := subtreesOfForest_spec hmaximum (List.getElem?_eq_getElem (List.mem_range.1 hi))
      exact ⟨(i, nodes), by rw [hnodes]; rfl⟩
  have hindices : lists.map Prod.fst = List.range forests.length := by
    rw [Scan.map_mapM (g := id) (fun i p hp => ?_) hlists, List.map_id]
    obtain ⟨l, -, rfl⟩ := Option.map_eq_some_iff.1 hp
    rfl
  have hrel : ∀ p ∈ lists, ∀ G, forests[p.1]? = some G →
      List.Forall₂ (fun v w => w ∈ G.subtrees ∧ v.Identical w) (L.filter fun n => !n.isTerminal) p.2 :=
          fun p hp G hG => by
    obtain ⟨i, -, hi⟩ := (Scan.mapM_mem hlists).2 p hp
    obtain ⟨l, hl, rfl⟩ := Option.map_eq_some_iff.1 hi
    obtain ⟨nodes, hnodes, hnodesrel⟩ := subtreesOfForest_spec hmaximum hG
    exact Option.some.inj (hnodes.symm.trans hl) ▸ hnodesrel
  refine ⟨lists, hlists, isReduction_of_forall₂ hI h₀ (hnodup.filter _) (fun v => ?_) hindices hrel, fun p hp => ?_⟩
  · rw [List.mem_filter, hL, Bool.not_eq_true']
  · have hp₁ : p.1 ∈ List.range forests.length := hindices ▸ List.mem_map_of_mem hp
    exact (hrel p hp _ (List.getElem?_eq_getElem (List.mem_range.1 hp₁))).length_eq.symm

/-- **One result for every fuel that is large enough.** -/
theorem exists_isApplicable (hI : IsInstance width forests) (h₀ : forests[0]? = some F)
    (hlabels : ∀ x, x ∈ labels ↔ (F.labelToTerminal x).isSome) :
    ∃ bound r, (∀ fuel, bound ≤ fuel → isApplicable width fuel labels forests = some r) ∧
      (r = none ↔ ¬∃ G ∈ forests, ∃ c, IsCommon G forests c ∧ IsCherry c) ∧ ∀ lists, r = some lists →
          IsReduction forests lists := by
  obtain ⟨fuel, s, s', L, hfill, hrun, hmaximum, hnodup, hL⟩ := exists_search hI h₀ hlabels
  obtain ⟨lists, hlists, hred, hlength⟩ := exists_lists hI h₀ hmaximum hnodup hL
  have hcherry : (∃ G ∈ forests, ∃ c, IsCommon G forests c ∧ IsCherry c) ↔ (L.filter fun n => !n.isTerminal) ≠ [] := by
    rw [exists_cherry_iff hI h₀, Ne, List.eq_nil_iff_forall_not_mem, not_forall]
    simp only [List.mem_filter, hL, Bool.not_eq_true', not_not]
  have hfilter : (lists.filter fun p => !p.2.isEmpty).isEmpty = true ↔ (L.filter fun n => !n.isTerminal) = [] := by
    rw [List.isEmpty_iff, List.filter_eq_nil_iff]
    constructor
    · intro h
      have hpos : 0 < lists.length := by
        have hlen := congrArg List.length hred.indices
        rw [List.length_map, List.length_range] at hlen
        exact hlen ▸ Nat.lt_of_lt_of_le (by decide) hI.two
      have hmem := List.getElem_mem hpos
      rw [← List.length_eq_zero_iff, ← hlength _ hmem, List.length_eq_zero_iff]
      simpa using h _ hmem
    · intro hnil p hp
      have := hlength p hp
      rw [hnil] at this
      simpa using this
  have hone : ¬forests.length ≤ 1 := not_le.2 hI.two
  have hall : (L.filter fun n => !n.isTerminal) ≠ [] → (lists.filter fun p => !p.2.isEmpty) = lists := fun hne =>
    List.filter_eq_self.2 fun p hp => by
      have hpos := List.length_pos_iff.2 hne
      rw [← hlength p hp, List.length_pos_iff] at hpos
      simpa using hpos
  by_cases hnil : (L.filter fun n => !n.isTerminal) = []
  · have hempty := hfilter.2 hnil
    refine ⟨fuel, none, fun fuel' hfuel => isApplicable_mono hfuel ?_,
      ⟨fun _ h => hcherry.1 h hnil, fun _ => rfl⟩, fun lists h => by cases h⟩
    rw [isApplicable, if_neg hone, hfill]
    simp only [Option.bind_eq_bind, Option.bind_some, hrun, hlists, if_pos hempty, ite_self]
  · have hne := mt hfilter.1 hnil
    rw [hall hnil] at hne
    have hmax : ¬s'.maximum.isEmpty = true := fun h => by
      rw [List.isEmpty_iff.1 h, List.forall₂_nil_right_iff] at hmaximum
      exact hnil (by rw [hmaximum]; rfl)
    refine ⟨fuel, some lists, fun fuel' hfuel => isApplicable_mono hfuel ?_,
      ⟨fun h => (Option.some_ne_none lists h).elim, fun h => absurd (hcherry.2 hnil) h⟩, fun lists' h => ?_⟩
    · rw [isApplicable, if_neg hone, hfill]
      simp only [Option.bind_eq_bind, Option.bind_some, hrun, if_neg hmax, hlists, hall hnil, if_neg hne]
    · obtain rfl := Option.some.inj h
      exact hred

end Search

/-- Each subtree leaves an action on the stack. -/
theorem length_collapseSubtrees {todo : List (ℕ × Ptr)} {changes changes' : List (ℕ × CollapseSubtreeAction)}
    {stores stores' : List Store} (h : collapseSubtrees todo changes stores = some (changes', stores')) :
    changes'.length = changes.length + todo.length := by
  induction todo generalizing changes stores with
  | nil =>
      obtain ⟨rfl, -⟩ := Prod.mk.inj (Option.some.inj h)
      rfl
  | cons e todo ih =>
      obtain ⟨i, p⟩ := e
      simp only [collapseSubtrees, Option.bind_eq_bind, Option.bind_eq_some_iff] at h
      obtain ⟨s, -, ⟨a, s'⟩, -, h⟩ := h
      rw [ih h, List.length_cons, List.length_cons]
      omega

end SubtreeReductionRule

namespace ChainReductionRule

/-- Each chain leaves an action for each forest on the stack. -/
theorem length_shortenChains {fuel : ℕ} {pairs : List (Label × Label)}
    {changes changes' : List (ℕ × ShortenChainAction)}
    {stores stores' : List Store} (h : shortenChains fuel pairs changes stores = some (changes', stores')) :
    changes'.length = changes.length + pairs.length * stores.length := by
  induction pairs generalizing changes stores with
  | nil =>
      obtain ⟨rfl, -⟩ := Prod.mk.inj (Option.some.inj h)
      rw [List.length_nil, Nat.zero_mul, Nat.add_zero]
  | cons ends pairs ih =>
      obtain ⟨lower, upper⟩ := ends
      simp only [shortenChains, Option.bind_eq_bind, Option.bind_eq_some_iff] at h
      obtain ⟨done, hdone, h⟩ := h
      have hlen := (Scan.mapM_eq_some_iff.1 hdone).length_eq
      rw [ih h, List.length_cons, List.length_append, List.length_reverse, List.length_map, List.length_zipIdx,
        List.length_map, List.length_map, ← hlen, Nat.succ_mul]
      omega

/-- A rule is made for one chain or more. -/
theorem ne_nil_of_isApplicable {fuel : ℕ} {order : List Label} {iterate : List (List Label) → List (List Label)}
    {stores : List Store} {pairs : List (Label × Label)}
    (h : isApplicable fuel order iterate stores = some (some pairs)) :
    pairs ≠ [] := by
  simp only [isApplicable, Option.bind_eq_bind, Option.bind_eq_some_iff, Option.some.injEq] at h
  obtain ⟨σ, -, pairs', -, h⟩ := h
  split_ifs at h with hemp
  obtain rfl := Option.some.inj h
  exact fun hnil => hemp (by rw [hnil]; rfl)

end ChainReductionRule

/-- `LabelToTerminal` of the memory and of the forest have the same keys. -/
theorem Held.isSome_labelToTerminal {width fuel : ℕ} {s : Store} {F : Forest} (h : Held width fuel s F) (x : Label) :
    (s.labelToTerminal x).isSome = (F.labelToTerminal x).isSome := by
  rw [Bool.eq_iff_iff, Option.isSome_iff_exists, Option.isSome_iff_exists]
  simp only [h.indexed.labelToTerminal, Forest.labelToTerminal_eq_some_iff h.wellFormed.valid]
  constructor
  · rintro ⟨p, l, m, hl, hx⟩
    exact ⟨_, hl, rfl, hx⟩
  · rintro ⟨t, ht, hterm, hx⟩
    cases t with
    | leaf p l m => exact ⟨p, l, m, ht, hx⟩
    | node => cases hterm

/-- A rule of `appliedRules`. -/
inductive ReductionRule where
  | subtreeReduction (rule : SubtreeReductionRule)
  | chainReduction (rule : ChainReductionRule)

namespace ReductionRule

/-- `unapply`. -/
def unapply (fuel : ℕ) : ReductionRule → List Store → Option (List Store)
  | .subtreeReduction rule, forests => (SubtreeReductionRule.unapply rule forests).map Prod.snd
  | .chainReduction rule, forests => (ChainReductionRule.unapply fuel rule forests).map Prod.snd

/-- What is on the stack of the rule. -/
def actions : ReductionRule → List (ℕ × ReductionAction)
  | .subtreeReduction rule => SubtreeReductionRule.actions rule.changes
  | .chainReduction rule => ChainReductionRule.actions rule.changes

/-- The flag of the rule. -/
def isApplied : ReductionRule → Bool
  | .subtreeReduction rule => rule.isApplied
  | .chainReduction rule => rule.isApplied

/-- The chains that the rule shortens. -/
def reducedChains : ReductionRule → List (Label × Label)
  | .subtreeReduction _ => []
  | .chainReduction rule => rule.reducedChains

/-- A rule that is applied undoes its actions. -/
theorem unapply_eq {fuel : ℕ} {rule : ReductionRule} (h : rule.isApplied = true) (forests : List Store) :
    rule.unapply fuel forests = popAll (undoAt (ReductionAction.undo fuel)) rule.actions forests := by
  cases rule with
  | subtreeReduction rule =>
      rw [unapply, SubtreeReductionRule.unapply, if_pos (show rule.isApplied = true from h), actions,
        SubtreeReductionRule.actions, popAll_map]
      cases hpop : popAll (undoAt CollapseSubtreeAction.undoAction) rule.changes forests with
      | none => exact hpop.symm
      | some forests' => exact hpop.symm
  | chainReduction rule =>
      rw [unapply, ChainReductionRule.unapply, if_pos (show rule.isApplied = true from h), actions,
        ChainReductionRule.actions, popAll_map]
      cases hpop : popAll (undoAt (ShortenChainAction.undoAction fuel)) rule.changes forests with
      | none => exact hpop.symm
      | some forests' => exact hpop.symm

end ReductionRule

/-- `ReductionSolver`. -/
structure ReductionSolver where
  forests : List Store
  appliedRules : List ReductionRule := []

namespace ReductionSolver

/-- What `solve` takes from its surroundings: the number of words of a node, a bound on the nodes of a
forest, and the orders in which the maps are iterated in each round. -/
structure Surroundings where
  width : ℕ
  fuel : ℕ
  labels : ℕ → Store → List Label
  values : ℕ → Store → List Label
  chains : ℕ → List (List Label) → List (List Label)
  forestToSubtrees : ℕ → List (ℕ × List Ptr) → List (ℕ × List Ptr)

/-- The first rule of a round; the result is `true` for progress. -/
def reduceSubtrees (env : Surroundings) (search k : ℕ) (solver : ReductionSolver) :
    Option (Bool × ReductionSolver) := do
  let first ← solver.forests.head?
  let found ← SubtreeReductionRule.isApplicable env.width search (env.labels k first)
    (solver.forests.map (Store.read env.fuel))
  match found with
  | none => some (false, solver)
  | some lists => do
      let forestToSubtrees := env.forestToSubtrees k (lists.map fun p => (p.1, p.2.map Tree.ptr))
      let (rule, forests) ← SubtreeReductionRule.apply ⟨forestToSubtrees, false, []⟩ solver.forests
      some (true, ⟨forests, solver.appliedRules ++ [.subtreeReduction rule]⟩)

/-- The second rule of a round. -/
def reduceChains (env : Surroundings) (k : ℕ) (solver : ReductionSolver) : Option (Bool × ReductionSolver) := do
  let first ← solver.forests.head?
  let found ← ChainReductionRule.isApplicable env.fuel (env.values k first) (env.chains k) solver.forests
  match found with
  | none => some (false, solver)
  | some reducedChains => do
      let (rule, forests) ← ChainReductionRule.apply env.fuel ⟨reducedChains, false, []⟩ solver.forests
      some (true, ⟨forests, solver.appliedRules ++ [.chainReduction rule]⟩)

/-- **`solve`**, from the round `k` on. -/
def solve (env : Surroundings) (search : ℕ) : ℕ → ℕ → ReductionSolver → Option ReductionSolver
  | 0, _, _ => none
  | rounds + 1, k, solver => do
      let (subtrees, solver) ← reduceSubtrees env search k solver
      let (chains, solver) ← reduceChains env k solver
      if subtrees || chains then solve env search rounds (k + 1) solver else some solver

/-- **`unapplyReductions`**. -/
def unapplyReductions (fuel : ℕ) (solver : ReductionSolver) : Option ReductionSolver := do
  let forests ← popAll (ReductionRule.unapply fuel) solver.appliedRules.reverse solver.forests
  some ⟨forests, []⟩

section Run

open Reduction

variable {width fuel : ℕ} {forests₀ forests : List Store} {Fs₀ Fs : List Forest} {env : Surroundings} {k : ℕ}
  {solver : ReductionSolver}

/-- Two or more forests in memory that have the same terminals. -/
structure IsInstance (width fuel : ℕ) (forests : List Store) (Fs : List Forest) : Prop extends
    ChainReductionRule.IsInstance width fuel forests Fs where
  two : 2 ≤ forests.length

/-- **The iterations see each entry of a map.** -/
structure Surroundings.Lawful (env : Surroundings) : Prop where
  labels : ∀ k s F, Held env.width env.fuel s F → ∀ x, x ∈ env.labels k s ↔ (s.labelToTerminal x).isSome
  values : ∀ k s F, Held env.width env.fuel s F → ∀ x, x ∈ env.values k s ↔ ∃ p, s.terminalToLabel p = some x
  chains : ∀ k chains, (env.chains k chains).Perm chains
  forestToSubtrees : ∀ k lists, (env.forestToSubtrees k lists).Perm lists

/-- All that `unapplyReductions` undoes, the last action first. -/
def actions (solver : ReductionSolver) : List (ℕ × ReductionAction) :=
  solver.appliedRules.reverse.flatMap ReductionRule.actions

/-- **What `solve` has reached** from the instance. -/
structure Reached (width fuel : ℕ) (forests₀ : List Store) (Fs₀ : List Forest) (solver : ReductionSolver)
    (Fs : List Forest) : Prop where
  run : Run width fuel forests₀ Fs₀ solver.actions solver.forests Fs
  isApplied : ∀ rule ∈ solver.appliedRules, rule.isApplied = true
  start : IsInstance width fuel forests₀ Fs₀
  same : ∀ F ∈ Fs, ∀ G ∈ Fs, F.SameTerminals G
  optimum : kStar Fs = kStar Fs₀

/-- What is reached is an instance again. -/
theorem Reached.inst (h : Reached width fuel forests₀ Fs₀ solver Fs) : IsInstance width fuel solver.forests Fs :=
  ⟨⟨h.run.held, h.run.length_lt h.start.length_lt, h.same⟩, by rw [h.run.length_eq]; exact h.start.two⟩

/-- **All rules are unapplied.** -/
theorem Reached.unapplyReductions (h : Reached width fuel forests₀ Fs₀ solver Fs) :
    solver.unapplyReductions fuel = some ⟨forests₀, []⟩ := by
  have hrules : ∀ (rules : List ReductionRule) (forests : List Store), (∀ rule ∈ rules, rule.isApplied = true) →
      popAll (ReductionRule.unapply fuel) rules forests =
        popAll (undoAt (ReductionAction.undo fuel)) (rules.flatMap ReductionRule.actions) forests := by
    intro rules
    induction rules with
    | nil => exact fun _ _ => rfl
    | cons rule rules ih =>
        intro forests hrules
        rw [List.forall_mem_cons] at hrules
        rw [popAll_cons, ReductionRule.unapply_eq hrules.1, List.flatMap_cons, popAll_append]
        exact congrArg _ (funext fun forests => ih forests hrules.2)
  rw [ReductionSolver.unapplyReductions, hrules _ _ fun rule hrule => h.isApplied rule (List.mem_reverse.1 hrule)]
  have hundo := h.run.undo
  rw [actions] at hundo
  rw [hundo]
  rfl

/-- One rule more. -/
theorem Reached.append {rule : ReductionRule} (h : Reached width fuel forests₀ Fs₀ solver Fs)
    (hrule : rule.isApplied = true) {Fs' : List Forest}
    (hrun : Run width fuel forests₀ Fs₀ (rule.actions ++ solver.actions) forests Fs')
    (hsame : ∀ F ∈ Fs', ∀ G ∈ Fs', F.SameTerminals G) (hoptimum : kStar Fs' = kStar Fs) :
    Reached width fuel forests₀ Fs₀ ⟨forests, solver.appliedRules ++ [rule]⟩ Fs' := by
  refine ⟨?_, fun r hr => ?_, h.start, hsame, hoptimum.trans h.optimum⟩
  · rw [actions, List.reverse_append, List.reverse_singleton, List.singleton_append, List.flatMap_cons]
    exact hrun
  · rcases List.mem_append.1 hr with hr | hr
    · exact h.isApplied r hr
    · rw [List.mem_singleton.1 hr]
      exact hrule

/-- Two different items of a list that is aligned with another one. -/
theorem pairwise_disjoint_of_maximal {F : Forest} {Gs : List Forest} {vs : List Tree} (hF : F.Valid) (hnodup : vs.Nodup)
    (hvs : ∀ v ∈ vs, Forest.IsMaximalCommon F Gs v) : vs.Pairwise fun u v => ∀ x ∈ u.ptrs, x ∉ v.ptrs := by
  refine hnodup.imp_of_mem fun {u v} hu hv hne x hxu hxv => hne ?_
  rw [← Tree.map_ptr_subtrees] at hxu hxv
  obtain ⟨c, hc, hcx⟩ := List.mem_map.1 hxu
  obtain ⟨d, hd, hdx⟩ := List.mem_map.1 hxv
  obtain rfl := Forest.eq_of_ptr_eq hF.nodup ((hvs u hu).1.of_mem hc).1 ((hvs v hv).1.of_mem hd).1 (hcx.trans hdx.symm)
  exact (hvs u hu).eq_of_mem hF.distinct (hvs v hv) (Tree.labels_subset_of_mem_subtrees hc c.least_mem_labels)
    (Tree.labels_subset_of_mem_subtrees hd c.least_mem_labels)

/-- **The first rule of a round.** -/
theorem exists_reduceSubtrees (henv : env.Lawful) (h : Reached env.width env.fuel forests₀ Fs₀ solver Fs) (k : ℕ) :
    ∃ bound progress solver' Fs', (∀ search, bound ≤ search →
        reduceSubtrees env search k solver = some (progress, solver')) ∧
      Reached env.width env.fuel forests₀ Fs₀ solver' Fs' ∧
      (progress = true → solver.actions.length < solver'.actions.length) ∧
      (progress = false → solver' = solver ∧ Fs' = Fs ∧
        ¬∃ G ∈ Fs, ∃ c, Forest.IsCommon G Fs c ∧ SubtreeReductionRule.IsCherry c) := by
  have hI := h.inst
  obtain ⟨s₀, rest, hforests⟩ := List.exists_cons_of_ne_nil (l := solver.forests) fun hnil => by
    have := hI.two
    rw [hnil] at this
    exact absurd this (by simp)
  obtain ⟨F₀, Frest, h₀, -, rfl⟩ := List.forall₂_cons_left_iff.1 (hforests ▸ hI.held)
  have hhead : solver.forests.head? = some s₀ := by rw [hforests]; rfl
  have hread : solver.forests.map (Store.read env.fuel) = F₀ :: Frest := by
    refine List.ext_getElem (by rw [List.length_map, hI.held.length_eq]) fun i hi hi' => ?_
    rw [List.length_map] at hi
    rw [List.getElem_map]
    exact ((List.forall₂_iff_get.1 hI.held).2 i hi hi').read
  have hS : SubtreeReductionRule.IsInstance env.width (F₀ :: Frest) := by
    refine ⟨by rw [← hI.held.length_eq]; exact hI.two, fun F hF => ?_, hI.same⟩
    obtain ⟨s, -, hs⟩ := (Scan.forall₂_mem hI.held).2 F hF
    exact ⟨hs.wellFormed.valid, hs.wellFormed.within⟩
  have hs₀ : Held env.width env.fuel s₀ F₀ := (List.forall₂_cons.1 (hforests ▸ hI.held)).1
  have hlabels : ∀ x, x ∈ env.labels k s₀ ↔ (F₀.labelToTerminal x).isSome := fun x => by
    rw [henv.labels k s₀ F₀ hs₀, hs₀.isSome_labelToTerminal]
  obtain ⟨bound, r, hr, hnone, hsome⟩ := SubtreeReductionRule.exists_isApplicable hS rfl hlabels
  have hfound : ∀ search, bound ≤ search → SubtreeReductionRule.isApplicable env.width search (env.labels k s₀)
      (solver.forests.map (Store.read env.fuel)) = some r := fun search hsearch => by rw [hread, hr search hsearch]
  cases r with
  | none =>
      refine ⟨bound, false, solver, _, fun search hsearch => ?_, h, fun h => absurd h Bool.false_ne_true,
        fun _ => ⟨rfl, rfl, hnone.1 rfl⟩⟩
      rw [reduceSubtrees, hhead]
      simp only [Option.bind_eq_bind, Option.bind_some, hfound search hsearch]
  | some lists =>
      have hred := hsome lists rfl
      set pointers := env.forestToSubtrees k (lists.map fun p => (p.1, p.2.map Tree.ptr)) with hpointers
      set todo := pointers.flatMap fun p => p.2.map fun subtree => (p.1, subtree) with htodo
      have hperm : pointers.Perm (lists.map fun p => (p.1, p.2.map Tree.ptr)) := henv.forestToSubtrees k _
      have hfst : (pointers.map Prod.fst).Perm (List.range (F₀ :: Frest).length) := by
        refine (hperm.map _).trans (List.Perm.of_eq ?_)
        rw [List.map_map, ← hred.indices]
        rfl
      -- the subtrees of one forest
      have hlist : ∀ (i : ℕ) (F : Forest), (F₀ :: Frest)[i]? = some F → ∃ p ∈ lists, p.1 = i ∧
          entriesAt i todo = p.2.map Tree.ptr ∧ (∀ v ∈ p.2, v ∈ F.subtrees ∧ v.isTerminal = false) ∧
          p.2.Pairwise fun u v => ∀ x ∈ u.ptrs, x ∉ v.ptrs := fun i F hF => by
        have hi : i ∈ lists.map Prod.fst := by
          rw [hred.indices]
          exact List.mem_range.2 (List.getElem?_eq_some_iff.1 hF).1
        obtain ⟨p, hp, rfl⟩ := List.mem_map.1 hi
        have hvalid := (hS.fits F (List.mem_of_getElem? hF)).valid
        have hmax := fun v hv => (hred.mem_iff p hp F hF v).1 hv
        refine ⟨p, hp, rfl, ?_, fun v hv => ⟨(hmax v hv).1.1.1, (hmax v hv).2⟩,
          pairwise_disjoint_of_maximal hvalid (hred.nodup p hp) fun v hv => (hmax v hv).1⟩
        exact SubtreeReductionRule.entriesAt_flatMap (hfst.nodup_iff.2 List.nodup_range)
          (hperm.symm.subset (List.mem_map_of_mem (f := fun p : ℕ × List Tree => (p.1, p.2.map Tree.ptr)) hp))
      have hlt : ∀ e ∈ todo, e.1 < (F₀ :: Frest).length := fun e he => by
        obtain ⟨p, hp, hep⟩ := List.mem_flatMap.1 he
        obtain ⟨q, -, rfl⟩ := List.mem_map.1 hep
        exact List.mem_range.1 (hfst.subset (List.mem_map_of_mem hp))
      have hstart : Run env.width env.fuel forests₀ Fs₀ (SubtreeReductionRule.actions [] ++ solver.actions)
        solver.forests
          (F₀ :: Frest) := h.run
      obtain ⟨changes, forests', Fs', hdo, hrun, hlen, hget⟩ := SubtreeReductionRule.collapseSubtrees_run hstart hlt
        fun i F hF => by
          obtain ⟨p, -, -, hentries, hvs, hdis⟩ := hlist i F hF
          rw [hentries]
          exact (Forest.collapsible_of_disjoint (hS.fits F (List.mem_of_getElem? hF)).valid hvs hdis).1
      have happly : SubtreeReductionRule.apply ⟨pointers, false, []⟩ solver.forests =
          some (⟨pointers, true, changes⟩, forests') := by
        rw [SubtreeReductionRule.apply, if_neg Bool.false_ne_true]
        simp only [← htodo, hdo, Option.bind_eq_bind, Option.bind_some]
      -- each forest has its subtrees collapsed
      have hall : List.Forall₂ (fun F F' => ∃ p ∈ lists, F' = Forest.collapseAll (p.2.map Tree.ptr) F ∧
          (∀ v ∈ p.2, v ∈ F.subtrees ∧ v.isTerminal = false) ∧ p.2.Pairwise fun u v => ∀ x ∈ u.ptrs, x ∉ v.ptrs)
          (F₀ :: Frest) Fs' := by
        refine List.forall₂_iff_get.2 ⟨hlen.symm, fun i hi hi' => ?_⟩
        have hH := List.getElem?_eq_getElem hi
        obtain ⟨p, hp, -, hentries, hvs, hdis⟩ := hlist i _ hH
        have := hget i _ hH
        rw [List.getElem?_eq_getElem hi', hentries] at this
        exact ⟨p, hp, Option.some.inj this, hvs, hdis⟩
      have hsame : ∀ F ∈ Fs', ∀ G ∈ Fs', F.SameTerminals G := fun F' hF' G' hG' => by
        obtain ⟨F, hF, p, hp, rfl, hvs, hvd⟩ := (Scan.forall₂_mem hall).2 F' hF'
        obtain ⟨G, hG, q, hq, rfl, hws, hwd⟩ := (Scan.forall₂_mem hall).2 G' hG'
        exact Forest.sameTerminals_collapseAll (hS.fits F hF).valid (hS.fits G hG).valid (hS.same F hF G hG)
          hvs hvd hws hwd
          (hred.aligned p hp q hq)
      have hoptimum : kStar Fs' = kStar (F₀ :: Frest) := Forest.kStar_of_collapseAll (List.cons_ne_nil _ _)
        (fun F hF G hG => ⟨(hS.fits F hF).valid, Forest.labels_eq_of_sameTerminals (hS.same F hF G hG)⟩)
          hred.aligned hall
      refine ⟨bound, true, _, Fs', fun search hsearch => ?_, h.append
        (show (ReductionRule.subtreeReduction ⟨pointers, true, changes⟩).isApplied = true from rfl) hrun hsame hoptimum,
          fun _ => ?_, fun h => absurd h (Bool.false_ne_true ∘ Eq.symm)⟩
      · rw [reduceSubtrees, hhead]
        simp only [Option.bind_eq_bind, Option.bind_some, hfound search hsearch, ← hpointers, happly]
      · -- the common cherry lies in a subtree that is collapsed
        have hshared := not_not.1 (mt hnone.2 (Option.some_ne_none lists))
        obtain ⟨v, hv⟩ := (SubtreeReductionRule.exists_cherry_iff hS rfl).1 hshared
        obtain ⟨p, hp, hp0, hentries, -, -⟩ := hlist 0 F₀ rfl
        have hvp := (hred.mem_iff p hp F₀ (hp0 ▸ rfl) v).2 hv
        have hpos : 0 < todo.length := by
          refine List.length_pos_iff.2 fun hnil => ?_
          rw [hnil, entriesAt_nil] at hentries
          exact absurd (hentries ▸ List.mem_map_of_mem (f := Tree.ptr) hvp) List.not_mem_nil
        have hchanges := SubtreeReductionRule.length_collapseSubtrees hdo
        rw [List.length_nil, Nat.zero_add] at hchanges
        simp only [actions, List.reverse_append, List.reverse_singleton, List.singleton_append, List.flatMap_cons,
          List.length_append, ReductionRule.actions, SubtreeReductionRule.actions, List.length_map]
        omega

/-- **The second rule of a round.** -/
theorem exists_reduceChains (henv : env.Lawful) (h : Reached env.width env.fuel forests₀ Fs₀ solver Fs) (k : ℕ) :
    ∃ progress solver' Fs', reduceChains env k solver = some (progress, solver') ∧
      Reached env.width env.fuel forests₀ Fs₀ solver' Fs' ∧
      (progress = true → solver.actions.length < solver'.actions.length) ∧
      (progress = false → solver' = solver ∧ Fs' = Fs) := by
  have hI := h.inst
  obtain ⟨s₀, rest, hforests⟩ := List.exists_cons_of_ne_nil (l := solver.forests) fun hnil => by
    have := hI.two
    rw [hnil] at this
    exact absurd this (by simp)
  obtain ⟨F₀, Frest, hs₀, -, hFs⟩ := List.forall₂_cons_left_iff.1 (hforests ▸ hI.held)
  have hhead : solver.forests.head? = some s₀ := by rw [hforests]; rfl
  obtain ⟨result, hresult, hpairs⟩ := ChainReductionRule.isApplicable_spec hI.toIsInstance hhead
    (henv.values k s₀ F₀ hs₀) (henv.chains k)
  cases result with
  | none =>
      refine ⟨false, solver, Fs, ?_, h, fun h => absurd h Bool.false_ne_true, fun _ => ⟨rfl, rfl⟩⟩
      rw [reduceChains, hhead]
      simp only [Option.bind_eq_bind, Option.bind_some, hresult]
  | some pairs =>
      obtain ⟨chains, hrep, hlinks, hdisj⟩ := hpairs pairs rfl
      have hstart : Run env.width env.fuel forests₀ Fs₀ (ChainReductionRule.actions [] ++ solver.actions)
          solver.forests Fs :=
        h.run
      have hlabels : ∀ F ∈ Fs, ∀ G ∈ Fs, F.labels = G.labels := fun F hF G hG =>
        Forest.labels_eq_of_sameTerminals (h.same F hF G hG)
      obtain ⟨changes, forests', Fs', hdo, hrun, hremoved, hoptimum⟩ := ChainReductionRule.shortenChains_run
        (List.ne_nil_of_mem (List.mem_of_head? hhead)) hlabels rfl hrep hlinks hdisj hstart
      have happly : ChainReductionRule.apply env.fuel ⟨pairs, false, []⟩ solver.forests =
          some (⟨pairs, true, changes⟩, forests') := by
        rw [ChainReductionRule.apply, if_neg Bool.false_ne_true]
        simp only [hdo, Option.bind_eq_bind, Option.bind_some]
      have hsame : ∀ F ∈ Fs', ∀ G ∈ Fs', F.SameTerminals G := fun F' hF' G' hG' => by
        obtain ⟨F, hF, hFF'⟩ := (Scan.forall₂_mem hremoved).2 F' hF'
        obtain ⟨G, hG, hGG'⟩ := (Scan.forall₂_mem hremoved).2 G' hG'
        exact ChainReductionRule.sameTerminals_of_removed hFF' hGG' (h.same F hF G hG)
      refine ⟨true, _, Fs', ?_, h.append
        (show (ReductionRule.chainReduction ⟨pairs, true, changes⟩).isApplied = true from rfl) hrun hsame hoptimum,
          fun _ => ?_,
        fun h => absurd h (Bool.false_ne_true ∘ Eq.symm)⟩
      · rw [reduceChains, hhead]
        simp only [Option.bind_eq_bind, Option.bind_some, hresult, happly]
      · have hne := ChainReductionRule.ne_nil_of_isApplicable hresult
        have hchanges := ChainReductionRule.length_shortenChains hdo
        rw [List.length_nil, Nat.zero_add] at hchanges
        have hpos := Nat.mul_pos (List.length_pos_iff.2 hne) (Nat.lt_of_lt_of_le (by decide : 0 < 2) hI.two)
        simp only [actions, List.reverse_append, List.reverse_singleton, List.singleton_append, List.flatMap_cons,
          List.length_append, ReductionRule.actions, ChainReductionRule.actions, List.length_map]
        omega

/-- **The rounds come to an end.** -/
theorem exists_solve (henv : env.Lawful) (h : Reached env.width env.fuel forests₀ Fs₀ solver Fs) (k : ℕ) :
    ∃ bound solver' Fs',
      (∀ search rounds, bound ≤ search → bound ≤ rounds → solve env search rounds k solver = some solver') ∧
      Reached env.width env.fuel forests₀ Fs₀ solver' Fs' ∧
      ¬∃ G ∈ Fs', ∃ c, Forest.IsCommon G Fs' c ∧ SubtreeReductionRule.IsCherry c := by
  induction hm : (Fs₀.map fun F => F.ptrs.length).sum - solver.actions.length using Nat.strong_induction_on
    generalizing solver Fs k with
  | _ m ih =>
      obtain ⟨bound₁, progress₁, solver₁, Fs₁, hrun₁, h₁, hlt₁, hstop₁⟩ := exists_reduceSubtrees henv h k
      obtain ⟨progress₂, solver₂, Fs₂, hrun₂, h₂, hlt₂, hstop₂⟩ := exists_reduceChains henv h₁ k
      have hround : ∀ search rounds, bound₁ ≤ search → solve env search (rounds + 1) k solver =
          if progress₁ || progress₂ then solve env search rounds (k + 1) solver₂ else some solver₂ :=
              fun search rounds hs => by
        rw [solve, hrun₁ search hs]
        simp only [Option.bind_eq_bind, Option.bind_some, hrun₂]
      have hle₁ : solver.actions.length ≤ solver₁.actions.length := by
        cases progress₁ with
        | false => rw [(hstop₁ rfl).1]
        | true => exact (hlt₁ rfl).le
      have hle₂ : solver₁.actions.length ≤ solver₂.actions.length := by
        cases progress₂ with
        | false => rw [(hstop₂ rfl).1]
        | true => exact (hlt₂ rfl).le
      have hmax := h₂.run.length_le
      by_cases hprogress : (progress₁ || progress₂) = true
      · have hlt : solver.actions.length < solver₂.actions.length := by
          rcases Bool.or_eq_true_iff.1 hprogress with hp | hp
          · exact (hlt₁ hp).trans_le hle₂
          · exact hle₁.trans_lt (hlt₂ hp)
        obtain ⟨bound, solver', Fs', hrun, h', hstop⟩ := ih _ (by omega) h₂ (k + 1) rfl
        refine ⟨max bound₁ bound + 1, solver', Fs', fun search rounds hs hr => ?_, h', hstop⟩
        obtain ⟨rounds, rfl⟩ := Nat.exists_eq_succ_of_ne_zero (show rounds ≠ 0 by omega)
        rw [hround search rounds (by omega), if_pos hprogress]
        exact hrun search rounds (by omega) (by omega)
      · rw [Bool.not_eq_true, Bool.or_eq_false_iff] at hprogress
        obtain ⟨rfl, rfl⟩ := hstop₂ hprogress.2
        obtain ⟨rfl, rfl, hcherry⟩ := hstop₁ hprogress.1
        refine ⟨bound₁ + 1, solver₂, Fs₂, fun search rounds hs hr => ?_, h, hcherry⟩
        obtain ⟨rounds, rfl⟩ := Nat.exists_eq_succ_of_ne_zero (show rounds ≠ 0 by omega)
        rw [hround search rounds (by omega), hprogress.1, hprogress.2]
        rfl

/-- **Reduced and unreduced.**  `solve` ends on every instance; the forests are well formed and still have
the same terminals, with no cherry in common.  `unapplyReductions` then gives back the memory that
`solve` was given. -/
theorem solve_unapplyReductions (henv : env.Lawful) (hI : IsInstance env.width env.fuel forests Fs) :
    ∃ bound solver Fs', (∀ search rounds, bound ≤ search → bound ≤ rounds →
        solve env search rounds 0 ⟨forests, []⟩ = some solver) ∧
      List.Forall₂ (fun s F => F.WellFormed env.width s ∧ F.Indexed s) solver.forests Fs' ∧
      (∀ F ∈ Fs', ∀ G ∈ Fs', F.SameTerminals G) ∧
      (¬∃ G ∈ Fs', ∃ c, Forest.IsCommon G Fs' c ∧ SubtreeReductionRule.IsCherry c) ∧
      solver.unapplyReductions env.fuel = some ⟨forests, []⟩ := by
  have hstart : Reached env.width env.fuel forests Fs ⟨forests, []⟩ Fs :=
    ⟨.nil hI.held, fun rule hrule => (by cases hrule), hI, hI.same, rfl⟩
  obtain ⟨bound, solver, Fs', hsolve, hreached, hcherry⟩ := exists_solve henv hstart 0
  exact ⟨bound, solver, Fs', hsolve, hreached.run.held.imp fun s F h => ⟨h.wellFormed, h.indexed⟩, hreached.same,
    hcherry, hreached.unapplyReductions⟩

/-- **Reducing keeps the optimum.**  `solve` ends on every instance, and the least number of components of an
agreement forest of the reduced forests is that of the forests it was given: through all
rounds, whatever subtrees are collapsed and whatever chains are shortened. -/
theorem solve_kStar (henv : env.Lawful) (hI : IsInstance env.width env.fuel forests Fs) :
    ∃ bound solver Fs', (∀ search rounds, bound ≤ search → bound ≤ rounds →
        solve env search rounds 0 ⟨forests, []⟩ = some solver) ∧
      List.Forall₂ (fun s F => F.WellFormed env.width s ∧ F.Indexed s) solver.forests Fs' ∧
      (∀ F ∈ Fs', ∀ G ∈ Fs', F.SameTerminals G) ∧ kStar Fs' = kStar Fs := by
  have hstart : Reached env.width env.fuel forests Fs ⟨forests, []⟩ Fs :=
    ⟨.nil hI.held, fun rule hrule => (by cases hrule), hI, hI.same, rfl⟩
  obtain ⟨bound, solver, Fs', hsolve, hreached, -⟩ := exists_solve henv hstart 0
  exact ⟨bound, solver, Fs', hsolve, hreached.run.held.imp fun s F h => ⟨h.wellFormed, h.indexed⟩, hreached.same,
    hreached.optimum⟩

/-- More fuel for the search for subtrees changes nothing. -/
theorem reduceSubtrees_mono {search search' : ℕ} (hsearch : search ≤ search') {solver : ReductionSolver}
    {r : Bool × ReductionSolver} (h : reduceSubtrees env search k solver = some r) :
    reduceSubtrees env search' k solver = some r := by
  obtain ⟨first, hfirst, h⟩ := Option.bind_eq_some_iff.1 h
  obtain ⟨found, hfound, h⟩ := Option.bind_eq_some_iff.1 h
  exact Option.bind_eq_some_iff.2
    ⟨first, hfirst, Option.bind_eq_some_iff.2 ⟨found, SubtreeReductionRule.isApplicable_mono hsearch hfound, h⟩⟩

/-- **`solve` gives the same result with more fuel.** -/
theorem solve_mono {search search' rounds rounds' : ℕ} (hsearch : search ≤ search') (hrounds : rounds ≤ rounds')
    {solver r : ReductionSolver} (h : solve env search rounds k solver = some r) :
    solve env search' rounds' k solver = some r := by
  induction rounds generalizing rounds' k solver with
  | zero => cases h
  | succ rounds ih =>
      obtain ⟨rounds', rfl⟩ := Nat.exists_eq_succ_of_ne_zero (show rounds' ≠ 0 by omega)
      obtain ⟨⟨subtrees, solver₁⟩, hsub, h⟩ := Option.bind_eq_some_iff.1 h
      obtain ⟨⟨chains, solver₂⟩, hchain, h⟩ := Option.bind_eq_some_iff.1 h
      refine Option.bind_eq_some_iff.2 ⟨_, reduceSubtrees_mono hsearch hsub, Option.bind_eq_some_iff.2 ⟨_, hchain, ?_⟩⟩
      dsimp only at h ⊢
      split_ifs at h ⊢
      · exact ih (by omega) h
      · exact h

/-- The keys of the two maps of a forest in memory, in increasing order and in the order of the nodes. -/
def keys (width fuel : ℕ) : Surroundings where
  width := width
  fuel := fuel
  labels := fun _ s => (List.range (64 * width + 1)).filter fun x => (s.labelToTerminal x).isSome
  values := fun _ s => (s.read fuel).subtrees.filterMap Tree.terminalToLabel
  chains := fun _ chains => chains
  forestToSubtrees := fun _ lists => lists

/-- Both maps are iterated as the model asks for. -/
theorem lawful_keys (width fuel : ℕ) : (keys width fuel).Lawful where
  labels k s F hs x := by
    have hlt : (s.labelToTerminal x).isSome → x < 64 * width + 1 := by
      intro h
      rw [hs.isSome_labelToTerminal, Option.isSome_iff_exists] at h
      obtain ⟨n, hn⟩ := h
      obtain ⟨hmem, -, hx⟩ := (Forest.labelToTerminal_eq_some_iff hs.wellFormed.valid).1 hn
      obtain ⟨t, ht, hnt⟩ := Forest.mem_subtrees.1 hmem
      exact Nat.lt_succ_of_le
        (hs.wellFormed.within t ht x (Tree.subtreeTerminals_subset_of_mem_subtrees hnt hx)).2
    rw [show (keys width fuel).labels k s = (List.range (64 * width + 1)).filter _ from rfl, List.mem_filter,
      List.mem_range]
    exact ⟨And.right, fun h => ⟨hlt h, h⟩⟩
  values k s F hs x := by
    have hread : s.read fuel = F := hs.read
    rw [show (keys width fuel).values k s = (s.read fuel).subtrees.filterMap Tree.terminalToLabel from rfl, hread,
      List.mem_filterMap]
    simp only [hs.indexed.terminalToLabel]
    constructor
    · rintro ⟨t, ht, hx⟩
      cases t with
      | leaf p l m =>
          obtain rfl := Option.some.inj hx
          exact ⟨p, m, ht⟩
      | node => cases hx
    · rintro ⟨p, m, ht⟩
      exact ⟨_, ht, rfl⟩
  chains k chains := List.Perm.refl chains
  forestToSubtrees k lists := List.Perm.refl lists

/-- Two caterpillars with the cherry of `1` and `9` in common, and above the different orders of `2` and `3` the
chain from `4` to `8`. -/
def caterpillars : Forest × Forest :=
  ([.node 0 (.node 1 (.node 2 (.node 3 (.node 4 (.node 5 (.node 6 (.node 7 (.leaf 8 1 ∅) (.leaf 9 9 ∅)) (.leaf 10 2 ∅))
    (.leaf 11 3 ∅)) (.leaf 12 4 ∅)) (.leaf 13 5 ∅)) (.leaf 14 6 ∅)) (.leaf 15 7 ∅)) (.leaf 16 8 ∅)],
    [.node 0 (.node 1 (.node 2 (.node 3 (.node 4 (.node 5 (.node 6 (.node 7 (.leaf 8 1 ∅) (.leaf 9 9 ∅)) (.leaf 10 3 ∅))
    (.leaf 11 2 ∅)) (.leaf 12 4 ∅)) (.leaf 13 5 ∅)) (.leaf 14 6 ∅)) (.leaf 15 7 ∅)) (.leaf 16 8 ∅)])

/-- The caterpillars in memory. -/
def caterpillarStores : List Store := [caterpillars.1.toStore 1, caterpillars.2.toStore 1]

/-- The caterpillars are an instance. -/
theorem isInstance_caterpillars : IsInstance 1 18 caterpillarStores [caterpillars.1, caterpillars.2] := by
  have hheld₁ : Held 1 18 (caterpillars.1.toStore 1) caterpillars.1 :=
    ⟨Forest.toStore_wellFormed (by decide) (by decide), Forest.toStore_indexed (by decide), by decide⟩
  have hheld₂ : Held 1 18 (caterpillars.2.toStore 1) caterpillars.2 :=
    ⟨Forest.toStore_wellFormed (by decide) (by decide), Forest.toStore_indexed (by decide), by decide⟩
  refine ⟨⟨.cons hheld₁ (.cons hheld₂ .nil), by decide, ?_⟩, by decide⟩
  have hsame : caterpillars.1.SameTerminals caterpillars.2 := fun x m => by
    simp [caterpillars, Forest.subtrees, Tree.subtrees, exists_or]
    tauto
  intro F hF G hG
  rw [List.mem_pair] at hF hG
  rcases hF with rfl | rfl <;> rcases hG with rfl | rfl
  · exact fun x m => Iff.rfl
  · exact hsame
  · exact fun x m => (hsame x m).symm
  · exact fun x m => Iff.rfl

/-- **One subtree is collapsed and one chain is shortened**, however much fuel there is. -/
theorem solve_caterpillars {bound : ℕ} {solver : ReductionSolver}
    (h : ∀ search rounds, bound ≤ search → bound ≤ rounds →
      solve (keys 1 18) search rounds 0 ⟨caterpillarStores, []⟩ = some solver) :
    solver.appliedRules.map ReductionRule.reducedChains = [[], [(6, 7)]] := by
  have hrun : (solve (keys 1 18) 60 4 0 ⟨caterpillarStores, []⟩).map
      (fun solver => solver.appliedRules.map ReductionRule.reducedChains) = some [[], [(6, 7)]] := by decide +kernel
  obtain ⟨solver', hsolver, hchains⟩ := Option.map_eq_some_iff.1 hrun
  have hmore := solve_mono (le_max_left 60 bound) (le_max_left 4 bound) hsolver
  rw [h _ _ (le_max_right 60 bound) (le_max_right 4 bound)] at hmore
  rw [Option.some.inj hmore, hchains]

/-- The caterpillars are reduced by both rules, and come back. -/
theorem solve_unapplyReductions_caterpillars :
    ∃ bound solver Fs', (∀ search rounds, bound ≤ search → bound ≤ rounds →
        solve (keys 1 18) search rounds 0 ⟨caterpillarStores, []⟩ = some solver) ∧
      solver.appliedRules.map ReductionRule.reducedChains = [[], [(6, 7)]] ∧
      List.Forall₂ (fun s F => F.WellFormed 1 s ∧ F.Indexed s) solver.forests Fs' ∧
      (∀ F ∈ Fs', ∀ G ∈ Fs', F.SameTerminals G) ∧
      (¬∃ G ∈ Fs', ∃ c, Forest.IsCommon G Fs' c ∧ SubtreeReductionRule.IsCherry c) ∧
      solver.unapplyReductions 18 = some ⟨caterpillarStores, []⟩ := by
  obtain ⟨bound, solver, Fs', hsolve, hheld, hsame, hcherry, hback⟩ :=
    solve_unapplyReductions (lawful_keys 1 18) isInstance_caterpillars
  exact ⟨bound, solver, Fs', hsolve, solve_caterpillars hsolve, hheld, hsame, hcherry, hback⟩

/-- Both reductions keep the optimum of the caterpillars. -/
theorem solve_kStar_caterpillars :
    ∃ bound solver Fs', (∀ search rounds, bound ≤ search → bound ≤ rounds →
        solve (keys 1 18) search rounds 0 ⟨caterpillarStores, []⟩ = some solver) ∧
      solver.appliedRules.map ReductionRule.reducedChains = [[], [(6, 7)]] ∧
      List.Forall₂ (fun s F => F.WellFormed 1 s ∧ F.Indexed s) solver.forests Fs' ∧
      (∀ F ∈ Fs', ∀ G ∈ Fs', F.SameTerminals G) ∧ kStar Fs' = kStar [caterpillars.1, caterpillars.2] := by
  obtain ⟨bound, solver, Fs', hsolve, hheld, hsame, hopt⟩ := solve_kStar (lawful_keys 1 18) isInstance_caterpillars
  exact ⟨bound, solver, Fs', hsolve, solve_caterpillars hsolve, hheld, hsame, hopt⟩

end Run

end ReductionSolver

end Maf
