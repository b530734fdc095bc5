/-
# The ABC rule joins its pair

`src/Solver/Rule/ABCBranchingRule.cpp`, `src/Solver/Rule/SiblingRuleFactory.cpp` and
`src/Solver/Rule/EqualPairReductionRule.cpp`, in the states of a search.  An ABC rule
that `allRules` or `basicRules` returns gives up at the first protected edge, and else
cuts off exactly the subtrees that hang from the path between `a` and `c`
(`HangsBetween`); then these two are siblings in every forest, and the suggested
`EqualPairReductionRule` collapses their parent (`abc_joins`).
-/

import Maf.Solver.Backtracking

namespace Maf

open EarlyExit Prog
open Graph Body

namespace Forest

variable {F : Forest} {a c : Label} {u : Tree}

/-- **The subtree hangs from the path between `a` and `c`**: one of the two lies below its
sibling, and the other not below its parent. -/
def HangsBetween (F : Forest) (a c : Label) (u : Tree) : Prop :=
  ∃ o, F.sibling u = some o ∧
    (a ∈ o.labels ∧ c ∉ o.labels ∪ u.labels ∨ c ∈ o.labels ∧ a ∉ o.labels ∪ u.labels)

/-- The parent of a node is the smallest cluster around it. -/
theorem pendant_iff_hangsBetween (hF : F.Distinct) (hu : u ∈ F.subtrees) :
    Pendant F.clusters a c u.labels ↔ F.HangsBetween a c u := by
  constructor
  · rintro ⟨hU, P, hP, hPU, hd, hor⟩
    have hC := hierarchy hF
    have hPne : P.Nonempty := by
      obtain ⟨w, -, rfl⟩ := mem_clusters_iff.1 hP
      exact w.labels_nonempty
    have hssub : ∀ {A B : Finset Label}, A.Nonempty → Disjoint A B → B ⊂ A ∪ B := by
      rintro A B ⟨x, hx⟩ hAB
      exact ⟨Finset.subset_union_right, fun h =>
        Finset.disjoint_left.1 hAB hx (h (Finset.mem_union_left _ hx))⟩
    rcases root_or_child hu with hroot | ⟨q, l, r, hq, hlr⟩
    · -- a root lies in no larger cluster
      obtain ⟨t, ht, hT⟩ := mem_clusters.1 hPU
      obtain ⟨x, hx⟩ := u.labels_nonempty
      obtain rfl := hF.eq_of_mem hroot ht hx (Tree.subset_labels hT (Finset.mem_union_right _ hx))
      exact absurd (Tree.subset_labels hT) (hssub hPne hd).2
    obtain ⟨o, ho⟩ : ∃ o, F.sibling u = some o := by
      rcases hlr with rfl | rfl
      · exact ⟨r, (sibling_eq_some_iff hF).2 ⟨q, Or.inl hq⟩⟩
      · exact ⟨l, (sibling_eq_some_iff hF).2 ⟨q, Or.inr hq⟩⟩
    obtain ⟨s, -, -, hs, -, hoF, hlab, hdo⟩ := exists_of_sibling hF ho
    have hO := labels_mem_clusters hoF
    have hOU : o.labels ∪ u.labels ∈ F.clusters := by
      rw [Finset.union_comm, ← hlab]
      exact labels_mem_clusters hs
    have h₁ := hC.union_subset_of_ssubset hP hU hPU hd hOU (hssub o.labels_nonempty hdo.symm)
    have h₂ := hC.union_subset_of_ssubset hO hU hOU hdo.symm hPU (hssub hPne hd)
    have hPO : P = o.labels := by
      rw [← Finset.union_sdiff_cancel_right hd, h₁.antisymm h₂, Finset.union_sdiff_cancel_right hdo.symm]
    rw [hPO] at hor
    exact ⟨o, ho, hor⟩
  · rintro ⟨o, ho, hor⟩
    obtain ⟨s, -, -, hs, -, hoF, hlab, hd⟩ := exists_of_sibling hF ho
    refine ⟨labels_mem_clusters hu, o.labels, labels_mem_clusters hoF, ?_, hd.symm, hor⟩
    rw [Finset.union_comm, ← hlab]
    exact labels_mem_clusters hs

end Forest

/-- The terminals of the labels are siblings, in memory. -/
def Graph.Store.AreSiblings (s : Store) (a c : Label) : Prop :=
  ∃ p q v, s.labelToTerminal a = some p ∧ s.labelToTerminal c = some q ∧
    (s.nodes p).parent = some v ∧ (s.nodes q).parent = some v ∧
    (s.nodes p).sibling = some q ∧ (s.nodes q).sibling = some p

/-- The node has the terminals of the two labels for children. -/
def Forest.IsCherry (F : Forest) (a c : Label) (v : Ptr) : Prop :=
  ∃ pa ma pc mc, Tree.node v (.leaf pa a ma) (.leaf pc c mc) ∈ F.subtrees ∨
    Tree.node v (.leaf pc c mc) (.leaf pa a ma) ∈ F.subtrees

section Joined

variable {width fuel : ℕ} {a c : Label}

/-- Two labels that are a cluster are siblings in memory. -/
theorem Held.areSiblings {s : Store} {F : Forest} (h : Held width fuel s F) (hcl : {a, c} ∈ F.clusters) (hne : a ≠ c) :
    s.AreSiblings a c := by
  obtain ⟨q, u, v, hq, pa, ma, pc, mc, hor⟩ := Forest.exists_cherry h.wellFormed.valid.distinct hcl hne
  obtain ⟨t, ht, hqt⟩ := Forest.mem_subtrees.1 hq
  obtain ⟨-, -, hl, hr⟩ := (h.wellFormed.stored.trees t ht).children hqt
  obtain ⟨hu, hv⟩ := Forest.mem_subtrees_children hq
  have hterm : ∀ {p : Ptr} {x : Label} {m : Finset Label}, Tree.leaf p x m ∈ F.subtrees →
      s.labelToTerminal x = some p := fun hp =>
    (h.indexed.labelToTerminal _ _).2 ⟨_, _, hp, Finset.mem_insert_self ..⟩
  have hul : (s.nodes u.ptr).parent = some q ∧ (s.nodes u.ptr).sibling = some v.ptr := by rw [hl.root]; exact ⟨rfl, rfl⟩
  have hvr : (s.nodes v.ptr).parent = some q ∧ (s.nodes v.ptr).sibling = some u.ptr := by rw [hr.root]; exact ⟨rfl, rfl⟩
  rcases hor with ⟨rfl, rfl⟩ | ⟨rfl, rfl⟩
  · exact ⟨pa, pc, q, hterm hu, hterm hv, hul.1, hvr.1, hul.2, hvr.2⟩
  · exact ⟨pa, pc, q, hterm hv, hterm hu, hvr.1, hul.1, hvr.2, hul.2⟩

/-- **What the first branch of the ABC rule does** to the memory `m` when it runs to its
end: it leaves the rule `r` and the memory `m'`. -/
structure Joins (fuel : ℕ) (a c : Label) (m : Memory) (r : RuleObject) (m' : Memory) : Prop where
  siblings : ∀ s ∈ m'.forests, s.AreSiblings a c
  cuts : ∀ x, x ∈ r.changes.map Change.cutNode ↔ ∃ i F u, x = some (i, Tree.ptr u) ∧
    (m.read fuel)[i]? = some F ∧ u ∈ F.subtrees ∧ F.HangsBetween a c u
  nodup : (r.changes.map Change.cutNode).Nodup
  parted : ∀ {i : ℕ} {F G : Forest} {u : Tree}, (m.read fuel)[i]? = some F → (m'.read fuel)[i]? = some G →
    u ∈ F.subtrees → F.HangsBetween a c u → u ∈ G
  suggestion : r.nextRuleSuggestion = [{ rule := .equalPairReduction a c }]
  collapses : ∃ q m'', RuleObject.apply fuel { rule := .equalPairReduction a c } m' = some (.continue, q, m'') ∧
    ∀ (i : ℕ) (F : Forest), (m'.read fuel)[i]? = some F →
      ∃ v, F.IsCherry a c v ∧ (m''.read fuel)[i]? = some (F.collapse v)

/-- **The suggested rule collapses the cherry of the pair**, in every forest. -/
theorem collapses_of_cherry {m : Memory} {Gs : List Forest} (hm : m.Holds width fuel Gs)
    (hcl : ∀ G ∈ Gs, {a, c} ∈ G.clusters) (hne : a ≠ c) :
    ∃ q m', RuleObject.apply fuel { rule := .equalPairReduction a c } m = some (.continue, q, m') ∧
      ∀ (i : ℕ) (F : Forest), (m.read fuel)[i]? = some F →
        ∃ v, F.IsCherry a c v ∧ (m'.read fuel)[i]? = some (F.collapse v) := by
  have hspec : EarlyExit.Triple (Keeps fuel) (fun _ => False) (fun y => y.2.Holds width fuel Gs)
      (EqualPairReductionRule.apply a) (fun y => y.2.Holds width fuel (Gs.map (Forest.collapseParent a))) :=
    EqualPairReductionRule.collapsePair_spec hcl hne
  set r : RuleObject := { rule := .equalPairReduction a c } with hr
  obtain ⟨b, ⟨q, m'⟩, hrun, -, hE, hQ⟩ := hspec (r.begun, m) hm
  cases b with
  | true => exact absurd (hE rfl) id
  | false =>
      refine ⟨q, m', ?_, fun i F hF => ?_⟩
      · rw [RuleObject.apply_eq (r := r) rfl nofun nofun]
        change ((EqualPairReductionRule.apply a (r.begun, m)).map (RuleObject.finish .continue)) = _
        rw [hrun]
        rfl
      · rw [hm.read] at hF
        obtain ⟨s, -, hheld⟩ := hm.get hF
        have hv := hheld.wellFormed.valid
        obtain ⟨v, l, r, hv', pa, ma, pc, mc, hor⟩ :=
          Forest.exists_cherry hv.distinct (hcl F (List.mem_of_getElem? hF)) hne
        refine ⟨v, ?_, ?_⟩
        · rcases hor with ⟨rfl, rfl⟩ | ⟨rfl, rfl⟩
          · exact ⟨pa, ma, pc, mc, Or.inl hv'⟩
          · exact ⟨pa, ma, pc, mc, Or.inr hv'⟩
        · rw [(hQ rfl).read, List.getElem?_map, hF, Option.map_some,
            Forest.collapseParent_eq hv hv' (hor.imp And.left And.right)]

/-- **The first branch**, applied to forests for which the b-nodes were collected. -/
theorem apply_abcBranching {m : Memory} {Fs : List Forest} {bs : List (ℕ × List Ptr)} (hm : m.Holds width fuel Fs)
    (hcol : Collected a c 0 Fs bs) (hne : a ≠ c) :
    ∃ code r m', RuleObject.apply fuel { rule := .abcBranching a c bs } m = some (code, r, m') ∧
      (code = .cutBranch ∧ (∃ p ∈ ABCBranchingRule.cutNodes bs, p ∈ m.protectedEdges) ∨
        code = .continueWithRuleSuggestion ∧ (∀ p ∈ ABCBranchingRule.cutNodes bs, p ∉ m.protectedEdges) ∧
          Joins fuel a c m r m') := by
  set r₀ : RuleObject := { rule := .abcBranching a c bs } with hr₀
  obtain ⟨b, ⟨r, m'⟩, hrun, hkeeps, hprot, Gs, hm', -, hend⟩ :=
    ABCBranchingRule.joinPair_run hcol rfl (show m.Holds width fuel ([] ++ Fs) from hm) r₀.begun
  have happly : RuleObject.apply fuel r₀ m =
      some (if b then .cutBranch else .continueWithRuleSuggestion, r, m') := by
    rw [RuleObject.apply_eq (r := r₀) rfl nofun fun _ => (by decide : 0 < 3)]
    change ((forEach (fun e : ℕ × List Ptr => forEach (cutNode fuel e.1) e.2) bs (r₀.begun, m)).map
      (RuleObject.finish .continueWithRuleSuggestion)) = _
    rw [hrun]
    rfl
  refine ⟨_, r, m', happly, ?_⟩
  cases b with
  | true => exact Or.inl ⟨rfl, hprot.1 rfl⟩
  | false =>
      refine Or.inr ⟨rfl, fun p hp hpm => Bool.noConfusion (hprot.2 ⟨p, hp, hpm⟩), ?_⟩
      obtain ⟨hjoined, hchanges⟩ := hend rfl
      have hread : m.read fuel = Fs := hm.read
      have hread' : m'.read fuel = Gs := hm'.read
      have hv : ∀ F ∈ Fs, F.Valid := fun F hF => by
        obtain ⟨i, hi⟩ := List.mem_iff_getElem?.1 hF
        obtain ⟨s, -, hheld⟩ := hm.get hi
        exact hheld.wellFormed.valid
      have hjoin : ∀ {i : ℕ} {F G : Forest}, Fs[i]? = some F → Gs[i]? = some G → Forest.PairJoined a c F G := by
        intro i F G hF hG
        obtain ⟨hi, rfl⟩ := List.getElem?_eq_some_iff.1 hF
        obtain ⟨hi', rfl⟩ := List.getElem?_eq_some_iff.1 hG
        exact (List.forall₂_iff_get.1 hjoined).2 i hi hi'
      have hcherry : ∀ G ∈ Gs, {a, c} ∈ G.clusters := by
        intro G hG
        obtain ⟨i, hi⟩ := List.mem_iff_getElem?.1 hG
        have hi' : i < Fs.length := hjoined.length_eq ▸ (List.getElem?_eq_some_iff.1 hi).1
        exact (hjoin (List.getElem?_eq_getElem hi') hi).cherry
      have hcuts : r.changes.map Change.cutNode = ((ABCBranchingRule.cutNodes bs).map some).reverse := by
        rw [hchanges]
        exact List.append_nil _
      refine ⟨fun s hs => ?_, fun x => ?_, ?_, fun {i F G u} hF hG hu hbetween => ?_, ?_,
        collapses_of_cherry hm' hcherry hne⟩
      · obtain ⟨i, hi⟩ := List.mem_iff_getElem?.1 hs
        have hi' : i < Gs.length := hm'.length ▸ (List.getElem?_eq_some_iff.1 hi).1
        have hG := List.getElem?_eq_getElem hi'
        exact (hm'.held hi hG).areSiblings (hcherry _ (List.mem_of_getElem? hG)) hne
      · have hmem := fun j p => ABCBranchingRule.mem_cutNodes hcol (fun F hF => (hv F hF).distinct) (j := j) (p := p)
        rw [hcuts, List.mem_reverse, List.mem_map, hread]
        constructor
        · rintro ⟨⟨j, p⟩, hjp, rfl⟩
          obtain ⟨k, F, hj, hF, u, hu, rfl, hp⟩ := (hmem j p).1 hjp
          rw [Nat.zero_add] at hj
          have hd := (hv F (List.mem_of_getElem? hF)).distinct
          exact ⟨j, F, u, rfl, hj ▸ hF, hu, (Forest.pendant_iff_hangsBetween hd hu).1 hp⟩
        · rintro ⟨i, F, u, rfl, hF, hu, hbetween⟩
          have hd := (hv F (List.mem_of_getElem? hF)).distinct
          exact ⟨(i, u.ptr), (hmem i u.ptr).2 ⟨i, F, (Nat.zero_add i).symm, hF, u, hu, rfl,
            (Forest.pendant_iff_hangsBetween hd hu).2 hbetween⟩, rfl⟩
      · rw [hcuts, List.nodup_reverse]
        exact (ABCBranchingRule.nodup_cutNodes hcol hv).map (Option.some_injective _)
      · rw [hread] at hF
        rw [hread'] at hG
        have hd := (hv F (List.mem_of_getElem? hF)).distinct
        exact (hjoin hF hG).parted u hu ((Forest.pendant_iff_hangsBetween hd hu).2 hbetween)
      · have hrule : r.rule = .abcBranching a c bs := congrArg RuleObject.rule hkeeps.rule
        rw [RuleObject.nextRuleSuggestion, hrule]

end Joined

/-- **The first branch of the ABC rule joins its pair.**  In every state of a search,
an ABC rule that `allRules` or `basicRules` returns is left at a protected edge to one
of its b-nodes if there is one.  Else it cuts off exactly the subtrees that hang from the
path between `a` and `c`, in every forest; these two are siblings then, and the
suggested rule collapses their parent. -/
theorem abc_joins {e : Surroundings} {width : ℕ} {m₀ m : Memory} {Fs : List Forest} {X : Finset Label}
    {rules : List IsApplicableFn} {config : Configuration} {env : Environment}
    {s₀ s : Search (Option Memory) (Option RuleObject)} {a c : Label} {bs : List (ℕ × List Ptr)}
    (hm₀ : m₀.IsInstance width e.fuel Fs X) (he : e.Fits X)
    (hrules : rules = defaultRules e ∨ rules = approximationRules e ∨ rules = basicRuleList e) (hs₀ : s₀.Starts m₀)
    (h : Search.Reachable (ruleSystem e rules) config env s₀ s) (hm : s.inst = some m)
    (hrule : SiblingRuleFactory.allRules e.heuristicLabelOrder (m.read e.fuel) = some (some (.abcBranching a c bs)) ∨
      SiblingRuleFactory.basicRules e.heuristicLabelOrder (m.read e.fuel) = some (some (.abcBranching a c bs))) :
    ∃ code r m', RuleObject.apply e.fuel { rule := .abcBranching a c bs } m = some (code, r, m') ∧
      (code = .cutBranch ∧ (∃ p ∈ ABCBranchingRule.cutNodes bs, p ∈ m.protectedEdges) ∨
        code = .continueWithRuleSuggestion ∧ (∀ p ∈ ABCBranchingRule.cutNodes bs, p ∉ m.protectedEdges) ∧
          Joins e.fuel a c m r m') := by
  obtain ⟨m', hinst, ⟨X', Gs, hhold⟩, -⟩ := SearchInvariant.of_search hm₀ he hrules hs₀ h
  obtain rfl : m' = m := Option.some.inj (hinst.symm.trans hm)
  have hfit : (Rule.abcBranching a c bs).Fits 0 Gs X' := by
    rw [hhold.holds.read] at hrule
    cases Gs with
    | nil => rcases hrule with h | h <;> cases h
    | cons f0 fs =>
        rcases hrule with h | h
        · exact SiblingRuleFactory.allRules_fits hhold.valid h
        · exact SiblingRuleFactory.basicRules_fits hhold.valid h
  obtain ⟨hne, hcol⟩ := hfit.2.2 rfl
  exact apply_abcBranching hhold.holds hcol hne

/-- The rule joins the pair in two trees with five labels. -/
theorem abc_joins_fiveLabels :
    ∃ r m', RuleObject.apply 9 { rule := .abcBranching 1 2 [(1, [3, 8])] } (Memory.ofForests 1 fiveLabels) =
        some (.continueWithRuleSuggestion, r, m') ∧ Joins 9 1 2 (Memory.ofForests 1 fiveLabels) r m' := by
  have hreach : Search.Reachable (ruleSystem fiveLabelsSurroundings (defaultRules fiveLabelsSurroundings)) {}
      { clock := fun _ => 0 } { inst := some (Memory.ofForests 1 fiveLabels), context := {} }
      { inst := some (Memory.ofForests 1 fiveLabels), context := {} } := .start
  have hrule : SiblingRuleFactory.allRules fiveLabelsSurroundings.heuristicLabelOrder
      ((Memory.ofForests 1 fiveLabels).read fiveLabelsSurroundings.fuel) =
        some (some (.abcBranching 1 2 [(1, [3, 8])])) := by
    rw [isInstance_fiveLabels.holds.read]
    decide
  obtain ⟨code, r, m', happly, ⟨-, p, -, hp⟩ | ⟨rfl, -, hjoins⟩⟩ :=
    abc_joins isInstance_fiveLabels fits_fiveLabels (Or.inl rfl) ⟨rfl, rfl, rfl⟩ hreach rfl (Or.inl hrule)
  · exact absurd hp (Finset.notMem_empty p)
  · exact ⟨r, m', happly, hjoins⟩

end Maf
