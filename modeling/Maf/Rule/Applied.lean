/-
# A rule is applied and unapplied

What a rule asks of the forests is a predicate (`Rule.Fits`): the labels it cuts off
occur, the pair it collapses is a cherry everywhere, the b-nodes of the ABC rule are
those between its pair.  A fresh rule that fits can be applied; its `apply` comes to
an end, left early or not, the forests keep sharing their labels, and `unapply` gives
back the memory from before (`apply_spec`).  A branching rule fits again for its
next branch, and so does the rule that the ABC rule suggests.
-/

import Maf.Rule.ABCBranchingRule

namespace Maf

open EarlyExit Prog
open Graph Body

/-- **What a rule asks of the forests**, in its next branch after `branch`. -/
def Rule.Fits (branch : ℕ) (Fs : List Forest) (X : Finset Label) : Rule → Prop
  | .cutBranch => True
  | .checkSingleVertexTrees => True
  | .singleVertexTreePropagation labels => ∀ x ∈ labels, x ∈ X
  | .equalPairReduction a c => a ≠ c ∧ ∀ F ∈ Fs, {a, c} ∈ F.clusters
  | .bRule b1 b2 => b1 ∈ X ∧ (b2 ≠ 0 → b2 ∈ X)
  | .reverseB x => x ∈ X
  | .twoB x y => x ∈ X ∧ y ∈ X
  | .acBranching a c => a ∈ X ∧ c ∈ X
  | .abcBranching a c bs => a ∈ X ∧ c ∈ X ∧ (branch = 0 → a ≠ c ∧ Collected a c 0 Fs bs)
  | .forcedCherryCut a c => a ∈ X ∧ c ∈ X ∧ ∃ F, Fs[1]? = some F ∧ ∀ p m, Tree.leaf p a m ∉ F
  | .greedyCherryCut a _ => a ∈ X
  | .debugAssertFalse => False

section Parts

variable {width fuel t : ℕ} {X : Finset Label} {Fs : List Forest} {F : Forest} {m : Memory} {i : ℕ}

/-- The sibling of a node that is no root. -/
theorem Held.sibling {s : Store} (h : Held width fuel s F) {u : Tree} (hu : u ∈ F.subtrees) (hroot : u ∉ F) :
    ∃ o, F.sibling u = some o ∧ (s.nodes u.ptr).sibling = some o.ptr := by
  obtain ⟨-, q, l, r, hq, hlr, -⟩ := (h.parent hu).resolve_left fun h => hroot h.1
  obtain ⟨t, ht, hqt⟩ := Forest.mem_subtrees.1 hq
  obtain ⟨-, -, hl, hr⟩ := (h.wellFormed.stored.trees t ht).children hqt
  have hD := h.wellFormed.valid.distinct
  rcases hlr with rfl | rfl
  · exact ⟨r, (Forest.sibling_eq_some_iff hD).2 ⟨q, Or.inl hq⟩, by rw [hl.root]; rfl⟩
  · exact ⟨l, (Forest.sibling_eq_some_iff hD).2 ⟨q, Or.inr hq⟩, by rw [hr.root]; rfl⟩

/-- A node is cut off, unless it is a root. -/
theorem cutChild_run (hm : m.Holds width fuel Fs) (hF : Fs[i]? = some F) {u : Tree} (hu : u ∈ F.subtrees)
    (r : RuleObject) : ∃ y, ifChild i u.ptr (deleteEdge fuel i u.ptr) (r, m) = some (false, y) ∧ Keeps fuel (r, m) y ∧
      y.2.Holds width fuel (Fs.set i (F.cut u)) := by
  rw [ifChild_eq hm hF hu]
  split_ifs with hroot
  · obtain ⟨s, -, hheld⟩ := hm.get hF
    refine ⟨(r, m), rfl, Std.Refl.refl _, ?_⟩
    obtain ⟨hi, rfl⟩ := List.getElem?_eq_some_iff.1 hF
    rwa [Forest.cut_of_mem hheld.wellFormed.valid hroot, List.set_getElem_self]
  · obtain ⟨action, s', -, hrun, hm', hkeeps⟩ := deleteEdge_eq hm hF hu hroot r
    exact ⟨_, hrun, hkeeps, hm'⟩

/-- **The three cuts of `ForcedCherryCutRule`.** -/
theorem forcedCherryCut_spec {a c : Label} (hfit : (Rule.forcedCherryCut a c).Fits 0 Fs X) (hm : m.Holds width fuel Fs)
    (hlen : Fs.length = t) (hX : ∀ F ∈ Fs, F.labels = X) (r : RuleObject) :
    ∃ b y, ForcedCherryCutRule.apply fuel a c (r, m) = some (b, y) ∧ Keeps fuel (r, m) y ∧ On width fuel t X y := by
  obtain ⟨ha, hc, F, hF, hroot⟩ := hfit
  obtain ⟨s, hs, hheld⟩ := hm.get hF
  have hv := hheld.wellFormed.valid
  have hlab := hX F (List.mem_of_getElem? hF)
  obtain ⟨p, ma, haF, heqa⟩ := withTerminal_eq hm hF (hlab ▸ ha)
  obtain ⟨q, mc, hcF, heqc⟩ := withTerminal_eq hm hF (hlab ▸ hc)
  obtain ⟨o, ho, hsib⟩ := hheld.sibling haF (hroot p ma)
  rw [Tree.ptr_leaf] at hsib
  rw [ForcedCherryCutRule.apply, heqa, heqc]
  simp only [hs, hsib, Option.bind_eq_bind, Option.bind_some]
  split_ifs
  · exact ⟨true, (r, m), rfl, Std.Refl.refl _, Fs, hm, hlen, hX⟩
  -- `a`, then its sibling, then `c`, each in what the cut before left
  have hi : 1 < Fs.length := (List.getElem?_eq_some_iff.1 hF).1
  obtain ⟨u, -, -, -, -, hoF, -, hd⟩ := Forest.exists_of_sibling hv.distinct ho
  obtain ⟨hv₁, hlab₁, -⟩ := Forest.cut_spec hv haF
  have ho₁ := Forest.mem_subtrees_cut hv hoF (Or.inr hd.symm)
  obtain ⟨hv₂, hlab₂, -⟩ := Forest.cut_spec hv₁ ho₁
  have hc₂ := (Forest.leaf_mem_cut (c := o) hv₁).2 ((Forest.leaf_mem_cut (c := .leaf p a ma) hv).2 hcF)
  obtain ⟨hv₃, hlab₃, -⟩ := Forest.cut_spec hv₂ hc₂
  obtain ⟨⟨r₁, m₁⟩, hrun₁, hkeeps₁, hm₁⟩ := cutChild_run hm hF haF r
  obtain ⟨⟨r₂, m₂⟩, hrun₂, hkeeps₂, hm₂⟩ := cutChild_run hm₁ (List.getElem?_set_self hi) ho₁ r₁
  rw [List.set_set] at hm₂
  obtain ⟨⟨r₃, m₃⟩, hrun₃, hkeeps₃, hm₃⟩ := cutChild_run hm₂ (List.getElem?_set_self hi) hc₂ r₂
  rw [List.set_set] at hm₃
  rw [Tree.ptr_leaf] at hrun₁ hrun₃
  refine ⟨false, (r₃, m₃), ?_, IsTrans.trans _ _ _ hkeeps₁ (IsTrans.trans _ _ _ hkeeps₂ hkeeps₃),
    on_set hm₃ hF (hlab₃.trans (hlab₂.trans hlab₁)) hlen hX⟩
  simp only [forEach, Prog.seq, hrun₁, hrun₂, hrun₃, Prog.skip]

end Parts

namespace RuleObject

variable {width fuel t : ℕ} {X : Finset Label} {Fs : List Forest} {m : Memory}

/-- A rule before its next `apply`. -/
def Fresh (r : RuleObject) : Prop := r = { rule := r.rule, branch := r.branch }

/-- **The rule can be applied** to the memory. -/
structure Ready (width fuel t : ℕ) (X : Finset Label) (r : RuleObject) (m : Memory) : Prop where
  fresh : r.Fresh
  branch : r.isBranchingRule = true → r.branch < r.maxBranch
  fits : ∃ Fs : List Forest, m.Holds width fuel Fs ∧ Fs.length = t ∧ (∀ F ∈ Fs, F.labels = X) ∧
    r.rule.Fits r.branch Fs X

/-- The safety net is never ready. -/
theorem Ready.rule_ne {r : RuleObject} (h : r.Ready width fuel t X m) : r.rule ≠ .debugAssertFalse := by
  obtain ⟨Fs, -, -, -, hfit⟩ := h.fits
  intro he
  rw [he] at hfit
  exact hfit

/-- What the body of a rule does to the forests. -/
structure Ran (width fuel t : ℕ) (X : Finset Label) (r r' : RuleObject) (m m' : Memory) : Prop where
  undo : Keeps fuel (r, m) (r', m') ∨
    Extends fuel (r, m) (r', m') ∧ r.isBranchingRule = true ∧ r.branch = r.maxBranch
  shared : ∃ X' ⊆ X, m'.Over width fuel t X'

/-- **The body of a rule comes to its end.**  The first branch of the ABC rule, if it
is not left, joins its pair. -/
def Completes (width fuel t : ℕ) (X : Finset Label) (Fs : List Forest) (r : RuleObject) (m : Memory) (f : Body) :
    Prop :=
  ∃ b r' m', f (r, m) = some (b, r', m') ∧ Ran width fuel t X r r' m m' ∧
    (b = false → ∀ a c bs, r.rule = .abcBranching a c bs → r.branch = 1 → ∃ Gs, m'.Holds width fuel Gs ∧
      List.Forall₂ (Forest.PairJoined a c) Fs Gs ∧
      r'.changes.map Change.cutNode = ((ABCBranchingRule.cutNodes bs).map some).reverse ++ r.changes.map Change.cutNode)

/-- Most bodies keep the labels, and protect nothing. -/
theorem completes_of_keeps {r : RuleObject} {f : Body} (hon : On width fuel t X (r, m))
    (hno : ∀ a c bs, r.rule = .abcBranching a c bs → r.branch ≠ 1)
    (h : EarlyExit.Triple (Keeps fuel) (On width fuel t X) (On width fuel t X) f (On width fuel t X)) :
    Completes width fuel t X Fs r m f := by
  obtain ⟨b, ⟨r', m'⟩, hrun, hkeeps, hE, hQ⟩ := h (r, m) hon
  refine ⟨b, r', m', hrun, ⟨Or.inl hkeeps, X, Finset.Subset.refl X, ?_⟩,
    fun _ a c bs hr h₁ => absurd h₁ (hno a c bs hr)⟩
  cases b
  · exact hQ rfl
  · exact hE rfl

/-- The last branch of a rule may protect edges. -/
theorem completes_of_extends {r : RuleObject} {f : Body} (hon : On width fuel t X (r, m))
    (hno : ∀ a c bs, r.rule = .abcBranching a c bs → r.branch ≠ 1) (hbr : r.isBranchingRule = true)
    (hlast : r.branch = r.maxBranch)
    (h : EarlyExit.Triple (Extends fuel) (On width fuel t X) (On width fuel t X) f (On width fuel t X)) :
    Completes width fuel t X Fs r m f := by
  obtain ⟨b, ⟨r', m'⟩, hrun, hext, hE, hQ⟩ := h (r, m) hon
  refine ⟨b, r', m', hrun, ⟨Or.inr ⟨hext, hbr, hlast⟩, X, Finset.Subset.refl X, ?_⟩,
    fun _ a c bs hr h₁ => absurd h₁ (hno a c bs hr)⟩
  cases b
  · exact hQ rfl
  · exact hE rfl

/-- **The body of a rule that fits comes to its end.** -/
theorem body_completes {r : RuleObject} {branch : ℕ}
    (hbranch : r.branch = if r.isBranchingRule then branch + 1 else branch)
    (hmax : r.isBranchingRule = true → branch < r.maxBranch) (hm : m.Holds width fuel Fs) (hlen : Fs.length = t)
    (hX : ∀ F ∈ Fs, F.labels = X) (hfit : r.rule.Fits branch Fs X) :
    Completes width fuel t X Fs r m (r.body fuel).2 := by
  have hon : On width fuel t X (r, m) := ⟨Fs, hm, hlen, hX⟩
  have labels : ∀ {L : List Label}, (∀ x ∈ L, x ∈ X) → EarlyExit.Triple (Keeps fuel) (On width fuel t X)
      (On width fuel t X) (forEachForest fun i => forEach (cutLabel fuel · i) L) (On width fuel t X) := fun hL =>
    forEachForest_spec fun i hi => forEach_spec fun x hx => cutLabel_spec (hL x hx) hi
  have label : ∀ {x : Label}, x ∈ X → EarlyExit.Triple (Keeps fuel) (On width fuel t X)
      (On width fuel t X) (forEachForest (cutLabel fuel x)) (On width fuel t X) := fun hx =>
    forEachForest_spec fun i hi => cutLabel_spec hx hi
  unfold body
  cases hr : r.rule with
  | cutBranch => exact completes_of_keeps hon (by simp [hr]) (EarlyExit.Triple.skip fun _ h => h)
  | checkSingleVertexTrees => exact completes_of_keeps hon (by simp [hr]) (EarlyExit.Triple.skip fun _ h => h)
  | singleVertexTreePropagation ls =>
      rw [hr] at hfit
      exact completes_of_keeps hon (by simp [hr]) (labels hfit)
  | equalPairReduction a c =>
      rw [hr] at hfit
      obtain ⟨hne, hcl⟩ := hfit
      have hspec : EarlyExit.Triple (Keeps fuel) (fun _ => False) (fun y => y.2.Holds width fuel Fs)
          (EqualPairReductionRule.apply a) (fun y => y.2.Holds width fuel (Fs.map (Forest.collapseParent a))) :=
        EqualPairReductionRule.collapsePair_spec hcl hne
      obtain ⟨b, ⟨r', m'⟩, hrun, hkeeps, hE, hQ⟩ := hspec (r, m) hm
      cases b with
      | true => exact absurd (hE rfl) id
      | false =>
          refine ⟨false, r', m', hrun, ⟨Or.inl hkeeps, X.erase (max a c), Finset.erase_subset _ _,
            _, hQ rfl, by rw [List.length_map, hlen], fun G hG => ?_⟩, fun _ _ _ _ h => by rw [hr] at h; cases h⟩
          obtain ⟨F, hF, rfl⟩ := List.mem_map.1 hG
          obtain ⟨i, hi⟩ := List.mem_iff_getElem?.1 hF
          obtain ⟨s, -, hheld⟩ := hm.get hi
          rw [Forest.labels_collapseParent hheld.wellFormed.valid (hcl F hF) hne, hX F hF]
  | bRule b1 b2 =>
      rw [hr] at hfit
      refine completes_of_keeps hon (by simp [hr]) (labels ?_)
      split_ifs with h₀
      · simpa using hfit.1
      · simpa using ⟨hfit.1, hfit.2 h₀⟩
  | reverseB x =>
      rw [hr] at hfit
      exact completes_of_keeps hon (by simp [hr]) (label hfit)
  | twoB x y =>
      rw [hr] at hfit
      have hxy : ∀ z ∈ [x, y], z ∈ X := by simpa using (show x ∈ X ∧ y ∈ X from hfit)
      exact completes_of_keeps hon (by simp [hr]) (labels hxy)
  | acBranching a c =>
      rw [hr] at hfit
      have hmaxB : r.maxBranch = 2 := by rw [maxBranch, hr]
      have hbr : r.isBranchingRule = true := by rw [isBranchingRule, hmaxB]; rfl
      have hlt := hmax hbr
      rw [if_pos hbr] at hbranch
      have hcases : r.branch = 1 ∨ r.branch = 2 := by omega
      rcases hcases with h₁ | h₂
      · simp only [h₁, ACBranchingRule.apply]
        exact completes_of_keeps hon (by simp [hr]) (label hfit.1)
      · simp only [h₂, ACBranchingRule.apply]
        exact completes_of_extends hon (by simp [hr]) hbr (h₂.trans hmaxB.symm)
          (forEachForest_spec fun i hi => cutAndProtect_spec hfit.2 hfit.1 hi)
  | abcBranching a c bs =>
      rw [hr] at hfit
      obtain ⟨ha, hc, hbs⟩ := hfit
      have hmaxB : r.maxBranch = 3 := by rw [maxBranch, hr]
      have hbr : r.isBranchingRule = true := by rw [isBranchingRule, hmaxB]; rfl
      have hlt := hmax hbr
      rw [if_pos hbr] at hbranch
      have hcases : r.branch = 1 ∨ r.branch = 2 ∨ r.branch = 3 := by omega
      rcases hcases with h₁ | h₂ | h₃
      · obtain ⟨hne, hcol⟩ := hbs (by omega)
        obtain ⟨b, ⟨r', m'⟩, hrun, hkeeps, -, Gs, hm', hlab, hend⟩ :=
          ABCBranchingRule.joinPair_run hcol rfl (show m.Holds width fuel ([] ++ Fs) from hm) r
        simp only [h₁, ABCBranchingRule.apply]
        refine ⟨b, r', m', hrun, ⟨Or.inl hkeeps, X, Finset.Subset.refl X, Gs, hm',
          hlab.length_eq ▸ hlen, fun G hG => ?_⟩, fun hb a' c' bs' he _ => ?_⟩
        · obtain ⟨i, hi⟩ := List.mem_iff_getElem?.1 hG
          have hi' : i < Fs.length := hlab.length_eq ▸ (List.getElem?_eq_some_iff.1 hi).1
          have hGF := (List.forall₂_iff_get.1 hlab).2 i hi' (List.getElem?_eq_some_iff.1 hi).1
          obtain ⟨hi'', rfl⟩ := List.getElem?_eq_some_iff.1 hi
          exact hGF.trans (hX _ (List.getElem_mem hi'))
        · obtain ⟨rfl, rfl, rfl⟩ := Rule.abcBranching.inj (hr.symm.trans he)
          exact ⟨Gs, hm', hend hb⟩
      · simp only [h₂, ABCBranchingRule.apply]
        exact completes_of_keeps hon (by omega) (label hc)
      · simp only [h₃, ABCBranchingRule.apply]
        exact completes_of_extends hon (by omega) hbr (h₃.trans hmaxB.symm)
          (forEachForest_spec fun i hi => cutAndProtect_spec ha hc hi)
  | forcedCherryCut a c =>
      rw [hr] at hfit
      have hfit₀ : (Rule.forcedCherryCut a c).Fits 0 Fs X := hfit
      obtain ⟨b, ⟨r', m'⟩, hrun, hkeeps, hon'⟩ := forcedCherryCut_spec hfit₀ hm hlen hX r
      exact ⟨b, r', m', hrun, ⟨Or.inl hkeeps, X, Finset.Subset.refl X, hon'⟩,
        fun _ _ _ _ h => by rw [hr] at h; cases h⟩
  | greedyCherryCut a c =>
      rw [hr] at hfit
      exact completes_of_keeps hon (by simp [hr]) (label hfit)
  | debugAssertFalse =>
      rw [hr] at hfit
      exact hfit.elim

/-- The rule with its `apply` begun. -/
def begun (r : RuleObject) : RuleObject :=
  { r with isApplied := true, branch := if r.isBranchingRule then r.branch + 1 else r.branch }

/-- A fresh rule runs its body. -/
theorem apply_eq {r : RuleObject} (hfresh : r.Fresh) (hrule : r.rule ≠ .debugAssertFalse)
    (hbranch : r.isBranchingRule = true → r.branch < r.maxBranch) :
    r.apply fuel m = ((r.begun.body fuel).2 (r.begun, m)).map (finish (r.begun.body fuel).1) := by
  rw [Fresh] at hfresh
  have hgo : (r.isApplied || (r.isBranchingRule && r.isFullyExplored)) = false := by
    rw [show r.isApplied = false by rw [hfresh], Bool.false_or, Bool.and_eq_false_iff]
    cases hbr : r.isBranchingRule with
    | false => exact Or.inl rfl
    | true => exact Or.inr (decide_eq_false (not_le.2 (hbranch hbr)))
  unfold apply
  rw [if_neg hrule, hgo]
  rfl

/-- **What the body did is undone** by `unapply`: all its changes, and in the last
branch its protections. -/
theorem unapply_of_ran {r r' : RuleObject} {m' : Memory} (hfresh : r.Fresh) (hrule : r.rule ≠ .debugAssertFalse)
    (h : Ran width fuel t X r.begun r' m m') : r'.rule = r.rule ∧ r'.branch = r.begun.branch ∧
      r'.unapply fuel m' = some ({ rule := r.rule, branch := r'.branch }, m) := by
  have hext : Extends fuel (r.begun, m) (r', m') := h.undo.elim Keeps.toExtends And.left
  rw [Fresh] at hfresh
  have hr' : r' = { r.begun with changes := r'.changes, edgeProtections := r'.edgeProtections } := hext.rule
  obtain ⟨new, hnew, hundo⟩ := hext.changes
  obtain ⟨added, hdisj, hprot, hedge⟩ := hext.protections
  have hchanges : r'.changes = new := by
    rw [hnew, show r.begun.changes = [] by rw [begun, hfresh], List.append_nil]
  have hadded : r'.edgeProtections = added := by
    rw [hedge, show r.begun.edgeProtections = ∅ by rw [begun, hfresh], Finset.empty_union]
  have hrule' : r'.rule = r.rule := by rw [hr']; rfl
  have hbranch' : r'.branch = r.begun.branch := by rw [hr']
  have happlied : r'.isApplied = true := by rw [hr']; rfl
  refine ⟨hrule', hbranch', ?_⟩
  have hback : m'.protectedEdges \ added = m.protectedEdges := by
    rw [hprot, Finset.union_sdiff_distrib, Finset.sdiff_self, Finset.union_empty,
      Finset.sdiff_eq_self_of_disjoint hdisj.symm]
  unfold unapply
  rw [if_neg (by rwa [hrule']), happlied, hchanges, hundo, hadded]
  simp only [Bool.not_true, Bool.false_eq_true, if_false, Option.bind_eq_bind, Option.bind_some]
  split_ifs with hlast
  · rw [hback, hrule']
  · -- not in the last branch: nothing was protected
    rcases h.undo with hkeeps | ⟨-, hbr, hmax⟩
    · have h₁ : r'.edgeProtections = ∅ := by
        rw [hkeeps.edgeProtections, show r.begun.edgeProtections = ∅ by rw [begun, hfresh]]
      have h₂ : m'.protectedEdges = m.protectedEdges := hkeeps.protectedEdges
      rw [h₂, hrule', hadded.symm.trans h₁]
    · refine absurd ?_ hlast
      have hmax' : r'.maxBranch = r.begun.maxBranch := by rw [maxBranch, maxBranch, hrule']; rfl
      have hbr' : r'.isBranchingRule = true := by
        rw [isBranchingRule, hmax']
        exact hbr
      change (r'.isBranchingRule && decide (r'.branch = r'.maxBranch)) = true
      rw [hbr', Bool.true_and, decide_eq_true_eq, hbranch', hmax', hmax]

/-- Only `DebugAssertFalseRule` ends the search. -/
theorem code_ne_immediateReturn {r : RuleObject} (hrule : r.rule ≠ .debugAssertFalse) :
    (r.body fuel).1 ≠ .immediateReturn := by
  unfold body
  cases hr : r.rule with
  | debugAssertFalse => exact absurd hr hrule
  | abcBranching =>
      dsimp only
      split_ifs <;> exact nofun
  | _ => exact nofun

/-- Only the first branch of the ABC rule suggests a rule. -/
theorem eq_abc_of_code {r : RuleObject} (h : (r.body fuel).1 = .continueWithRuleSuggestion) :
    r.branch = 1 ∧ ∃ a c bs, r.rule = .abcBranching a c bs := by
  unfold body at h
  cases hr : r.rule with
  | abcBranching a c bs =>
      rw [hr] at h
      dsimp only at h
      split_ifs at h with h₁
      exact ⟨h₁, a, c, bs, rfl⟩
  | _ =>
      rw [hr] at h
      cases h

/-- **What a rule that is ready does.** -/
structure Applied (width fuel t : ℕ) (X : Finset Label) (r : RuleObject) (m : Memory) (code : RuleReturnCode)
    (r' : RuleObject) (m' : Memory) : Prop where
  applied : r.apply fuel m = some (code, r', m')
  rule : r'.rule = r.rule
  branch : r'.branch = if r.isBranchingRule then r.branch + 1 else r.branch
  shared : ∃ X' ⊆ X, m'.Over width fuel t X'
  undone : r'.unapply fuel m' = some ({ rule := r.rule, branch := r'.branch }, m)
  goesOn : code ≠ .immediateReturn
  again : r'.isBranchingRule = true → r'.isFullyExplored = false →
    Ready width fuel t X { rule := r.rule, branch := r'.branch } m
  suggestion : code = .continueWithRuleSuggestion → ∃ X' ⊆ X, ∀ q ∈ r'.nextRuleSuggestion, Ready width fuel t X' q m'

/-- **A rule that is ready can be applied**, and `unapply` gives the memory back. -/
theorem apply_spec {r : RuleObject} (h : Ready width fuel t X r m) :
    ∃ code r' m', Applied width fuel t X r m code r' m' := by
  obtain ⟨Fs, hm, hlen, hX, hfit⟩ := h.fits
  have hrule := h.rule_ne
  have hcomp : Completes width fuel t X Fs r.begun m (r.begun.body fuel).2 :=
    body_completes rfl h.branch hm hlen hX hfit
  obtain ⟨b, r', m', hrun, hran, hjoin⟩ := hcomp
  obtain ⟨hrule', hbranch', hundone⟩ := unapply_of_ran h.fresh hrule hran
  have hbegun : r.begun.branch = if r.isBranchingRule then r.branch + 1 else r.branch := rfl
  have hmax' : r'.maxBranch = r.maxBranch := by rw [maxBranch, maxBranch, hrule']
  have hbr' : r'.isBranchingRule = r.isBranchingRule := by rw [isBranchingRule, isBranchingRule, hmax']
  have happly : r.apply fuel m = some (if b then .cutBranch else (r.begun.body fuel).1, r', m') := by
    rw [apply_eq h.fresh hrule h.branch, hrun]
    rfl
  refine ⟨_, r', m', happly, hrule', hbranch', hran.shared, hundone, ?_,
    fun hbr hnot => ⟨rfl, fun _ => ?_, Fs, hm, hlen, hX, ?_⟩,
    fun hsugg => ?_⟩
  · cases b
    · exact code_ne_immediateReturn (r := r.begun) hrule
    · exact nofun
  · -- the next branch
    change r'.branch < maxBranch { rule := r.rule, branch := r'.branch }
    rw [show maxBranch { rule := r.rule, branch := r'.branch } = r'.maxBranch from by rw [maxBranch, maxBranch, hrule']]
    exact not_le.1 (of_decide_eq_false hnot)
  · change r.rule.Fits r'.branch Fs X
    have hpos : r'.branch ≠ 0 := by
      rw [hbranch', hbegun, if_pos (hbr' ▸ hbr)]
      exact Nat.succ_ne_zero _
    cases hr : r.rule with
    | acBranching a c => rwa [hr] at hfit
    | abcBranching a c bs =>
        rw [hr] at hfit
        exact ⟨hfit.1, hfit.2.1, fun h₀ => absurd h₀ hpos⟩
    | _ => simp [isBranchingRule, maxBranch, hrule', hr] at hbr
  · -- the pair is joined, so it can be collapsed
    cases b with
    | true => cases hsugg
    | false =>
        obtain ⟨h₁, a, c, bs, hr⟩ := eq_abc_of_code hsugg
        obtain ⟨Gs, hm', hjoined, -⟩ := hjoin rfl a c bs hr h₁
        have hne : a ≠ c := by
          rw [show r.rule = _ from hr] at hfit
          refine (hfit.2.2 ?_).1
          have hbr : r.isBranchingRule = true := by
            rw [isBranchingRule, maxBranch, show r.rule = _ from hr]
            rfl
          rw [hbegun, if_pos hbr] at h₁
          exact Nat.succ.inj h₁
        refine ⟨X, Finset.Subset.refl X, fun q hq => ?_⟩
        rw [nextRuleSuggestion, hrule', show r.rule = _ from hr, List.mem_singleton] at hq
        subst hq
        have hG : ∀ G ∈ Gs, G.labels = X ∧ {a, c} ∈ G.clusters := by
          intro G hG
          obtain ⟨i, hi⟩ := List.mem_iff_getElem?.1 hG
          obtain ⟨hi', rfl⟩ := List.getElem?_eq_some_iff.1 hi
          have hi'' : i < Fs.length := hjoined.length_eq ▸ hi'
          have hj := (List.forall₂_iff_get.1 hjoined).2 i hi'' hi'
          exact ⟨hj.labels.trans (hX _ (List.getElem_mem hi'')), hj.cherry⟩
        exact ⟨rfl, nofun, Gs, hm', hjoined.length_eq ▸ hlen, fun G hG' => (hG G hG').1, hne, fun G hG' => (hG G hG').2⟩

end RuleObject

end Maf
