/-
# The descent to a minimal incompatible set

`findMinIncompat` of `src/Solver/Approximation/RedBlueDual.cpp`.  While the cuts of the
first tree lie off the active labels, the node that `lcaSet` finds for some of them is the
lowest around them, so both its children hold active labels.  The descent goes on with an
incompatible one of the two, which has at least three, and ends at a node whose children
are both compatible (`finds_findMinIncompat`).
-/

import Maf.Approx.CherryScan

namespace Maf
namespace Approx
namespace RedBlue2

open ParentWalk (Anc IsLca)
open MutableForestView
open ExceptState (Ends Finds)

/-- With `RB_CHECK_COMPAT` set the sets are taken to be small enough for the keys of their
intervals. -/
def FitsKeys (checkCompat : Bool) (S : Finset Label) : Prop := checkCompat = true → S.card < 2 ^ 24

/-- `compatibleSet` answers, and two labels are compatible. -/
theorem exists_compatibleSet {T₁ T₂ : Tree} (hT₁ : WellFormed [T₁]) (hT₂ : WellFormed [T₂]) (hl : T₁.labels = T₂.labels)
    {checkCompat : Bool} (hfits : FitsKeys checkCompat T₁.labels) {S : List Label} (hS : S.Nodup)
    (hsub : ∀ x ∈ S, x ∈ T₁.labels) :
    ∃ b, compatibleSet (original T₁) (original T₂) checkCompat S = some b ∧ (b = false → 3 ≤ S.length) := by
  have hcard : S.length ≤ T₁.labels.card := by
    rw [← List.toFinset_card_of_nodup hS]
    exact Finset.card_le_card fun x hx => hsub x (List.mem_toFinset.1 hx)
  have htriples : S.length ≤ 2 → Scan.triples S = [] := fun h =>
    match S, h with
    | [], _ => rfl
    | [_], _ => rfl
    | [_, _], _ => rfl
  by_cases hlen : S.length ≤ 2
  · have hslow : compatibleSlow (original T₁) (original T₂) S = some true := by
      rw [compatibleSlow, htriples hlen]
      rfl
    have hfast : compatibleFast (original T₁) (original T₂) S = some true := if_pos hlen
    refine ⟨true, ?_, fun h => nomatch h⟩
    cases checkCompat <;> simp [compatibleSet, hslow, hfast]
  suffices ∃ b, compatibleSet (original T₁) (original T₂) checkCompat S = some b by
    obtain ⟨b, hb⟩ := this
    exact ⟨b, hb, fun _ => by omega⟩
  by_cases hsmall : S.length < 2 ^ 24
  · obtain ⟨b, -, -, hset, -⟩ := compatible_iff hT₁ hT₂ hl hS hsub hsmall
    exact ⟨b, hset checkCompat⟩
  · cases checkCompat with
    | true => exact absurd (hcard.trans_lt (hfits rfl)) hsmall
    | false =>
        obtain ⟨s1, hs1, -, hsorted1⟩ := sortLabels_spec hT₁ hS hsub
        obtain ⟨s2, hs2, -, hsorted2⟩ := sortLabels_spec hT₂ hS fun x hx => hl ▸ hsub x hx
        obtain ⟨R1, hR1, -⟩ := clusterRanges_spec hT₁ hsorted1
        obtain ⟨R2, hR2, -⟩ := clusterRanges_spec hT₂ hsorted2
        rw [compatibleSet, if_neg Bool.false_ne_true, if_neg (by omega), compatibleFast, if_neg hlen]
        simp only [hs1, hs2, hR1, hR2, Option.bind_eq_bind, Option.bind_some]
        exact ⟨_, rfl⟩

variable {T : Side → Tree} {K : Side → Finset Ptr} {A : Finset Label} {s : RedBlue2} {v : Side}

section Descent

variable (hT : ∀ v, WellFormed [T v]) {I : RedBlue2 → Prop} (hI : ∀ s, I s → At T K A s)

include hT hI

/-- In any view the search for a common ancestor ends. -/
theorem finds_lcaSet {xs : List Label} (hxs : ∀ x ∈ xs, x ∈ (T v).labels) : Finds I (lcaSet v xs) fun _ => True := by
  have hloop : ∀ (xs : List Label) (cur : Option Ptr), (∀ x ∈ xs, x ∈ (T v).labels) →
      Finds I (lcaSetLoop v xs cur) fun _ => True := by
    intro xs
    induction xs with
    | nil => exact fun _ _ => Finds.pure trivial
    | cons x xs ih =>
        intro cur hxs
        cases cur with
        | none => exact Finds.pure trivial
        | some cur =>
            exact (finds_node hT hI (hxs x (List.mem_cons_self ..))).bind fun _ _ => Ends.get_bind fun s hs =>
              Ends.conseq (ih _ fun y hy => hxs y (List.mem_cons_of_mem _ hy)) (fun _ h => h ▸ hs) fun _ _ h => h
  cases xs with
  | nil => exact Finds.pure trivial
  | cons x xs =>
      exact (finds_node hT hI (hxs x (List.mem_cons_self ..))).bind fun p _ =>
        hloop xs (some p) fun y hy => hxs y (List.mem_cons_of_mem _ hy)

variable (hclear : Clear T K A) (hA : ∀ v, A ⊆ (T v).labels)

include hclear

omit hI in
/-- Around an active label the links of the first tree lead up all the way. -/
theorem Clear.anc_iff (hs : At T K A s) {t u : Tree} (ht : t ∈ Forest.subtrees [T .t1])
    (hu : u ∈ Forest.subtrees [T .t1])
    {z : Label} (hz : z ∈ A) (hzt : z ∈ t.labels) : Anc (s.view .t1).parent t.ptr u.ptr ↔ t.labels ⊆ u.labels := by
  rw [(hs.cutAt .t1).anc_iff (hT .t1) ht hu]
  exact ⟨And.left, fun h => ⟨h, fun Y hY htY => absurd hz (Finset.disjoint_left.1 (hclear Y hY) (htY hzt))⟩⟩

include hA

/-- The loop of `lcaSet` climbs to the least subtree around all labels so far. -/
theorem finds_lcaSetLoop : ∀ (xs : List Label) (u : Tree), u ∈ Forest.subtrees [T .t1] → (∃ z ∈ A, z ∈ u.labels) →
    (∀ x ∈ xs, x ∈ A) → Finds I (lcaSetLoop .t1 xs (some u.ptr)) fun r =>
      ∃ w ∈ Forest.subtrees [T .t1], r = some w.ptr ∧ u.labels ⊆ w.labels ∧ (∀ x ∈ xs, x ∈ w.labels) ∧
      ∀ t ∈ Forest.subtrees [T .t1], u.labels ⊆ t.labels → (∀ x ∈ xs, x ∈ t.labels) → w.labels ⊆ t.labels := by
  intro xs
  induction xs with
  | nil => exact fun u hu _ _ => Finds.pure ⟨u, hu, rfl, Finset.Subset.refl _, by simp, fun t _ h _ => h⟩
  | cons x xs ih =>
      rintro u hu ⟨z, hz, hzu⟩ hxs
      have hx : x ∈ A := hxs x (List.mem_cons_self ..)
      refine (finds_node hT hI (hA .t1 hx)).bind fun p ⟨m, hp⟩ => Ends.get_bind fun s hs => ?_
      have hat := hI s hs
      have hmem : ∀ {t : Tree}, t ∈ Forest.subtrees [T .t1] → t.ptr ∈ (s.view .t1).nodes := fun ht =>
        (hat.cutAt .t1).nodes ▸ mem_nodes.2 ⟨_, ht, rfl⟩
      have hlca := (hat.cutAt .t1).isLca_lca (hT .t1) (hmem hu) (hmem hp)
      have hup : ∀ {t}, t ∈ Forest.subtrees [T .t1] → (Anc (s.view .t1).parent u.ptr t.ptr ↔ u.labels ⊆ t.labels) :=
        fun ht => hclear.anc_iff hT hat hu ht hz hzu
      have hxp : ∀ {t}, t ∈ Forest.subtrees [T .t1] →
          (Anc (s.view .t1).parent p t.ptr ↔ x ∈ t.labels) := fun {t} ht => by
        have := hclear.anc_iff hT hat hp ht hx (Finset.mem_singleton_self x)
        rwa [Tree.labels, Finset.singleton_subset_iff] at this
      have hroot : T .t1 ∈ Forest.subtrees [T .t1] := mem_subtrees_root.2 (Tree.mem_subtrees_self _)
      have htop : u.labels ⊆ (T .t1).labels := Tree.labels_subset_of_mem_subtrees (mem_subtrees_root.1 hu)
      rw [Tree.ptr_leaf] at hlca
      cases hres : (s.view .t1).lca u.ptr p with
      | none =>
          rw [hres] at hlca
          exact absurd ((hxp hroot).2 (hA .t1 hx)) (hlca _ ((hup hroot).2 htop))
      | some n =>
          rw [hres] at hlca
          obtain ⟨hun, hpn, hleast⟩ := hlca
          obtain ⟨w, hw, rfl⟩ := (hat.cutAt .t1).exists_of_anc (hT .t1) hu hun
          have huw := (hup hw).1 hun
          refine Ends.conseq (ih w hw ⟨z, hz, huw hzu⟩ fun y hy => hxs y (List.mem_cons_of_mem _ hy))
            (fun _ h => h ▸ hs)
            fun r s' h => ⟨h.1, ?_⟩
          obtain ⟨w', hw', rfl, hsub, hall, hlow⟩ := h.2
          refine ⟨w', hw', rfl, huw.trans hsub, fun y hy => ?_, fun t ht hut hxt => hlow t ht ?_ fun y hy =>
            hxt y (List.mem_cons_of_mem _ hy)⟩
          · rcases List.mem_cons.1 hy with rfl | hy
            · exact hsub ((hxp hw).1 hpn)
            · exact hall y hy
          · exact (hclear.anc_iff hT hat hw ht hz (huw hzu)).1
              (hleast _ ((hup ht).2 hut) ((hxp ht).2 (hxt x (List.mem_cons_self ..))))

/-- **`lcaSet` finds the lowest node around active labels.** -/
theorem finds_lcaSet_t1 {S : List Label} (hS : S ≠ []) (hSA : ∀ x ∈ S, x ∈ A) :
    Finds I (lcaSet .t1 S) fun r => ∃ w ∈ Forest.subtrees [T .t1], r = some w.ptr ∧ (∀ x ∈ S, x ∈ w.labels) ∧
      ∀ t ∈ Forest.subtrees [T .t1], (∀ x ∈ S, x ∈ t.labels) → w.labels ⊆ t.labels := by
  cases S with
  | nil => exact absurd rfl hS
  | cons x xs =>
      have hx : x ∈ A := hSA x (List.mem_cons_self ..)
      refine (finds_node hT hI (hA .t1 hx)).bind fun p ⟨m, hp⟩ => ?_
      have hloop := finds_lcaSetLoop hT hI hclear hA xs _ hp ⟨x, hx, Finset.mem_singleton_self x⟩
        fun y hy => hSA y (List.mem_cons_of_mem _ hy)
      refine hloop.imp fun r ⟨w, hw, hr, hsub, hall, hlow⟩ => ⟨w, hw, hr, fun y hy => ?_, fun t ht h => ?_⟩
      · exact (List.mem_cons.1 hy).elim (fun h => h ▸ hsub (Finset.mem_singleton_self x)) (hall y)
      · exact hlow t ht (Finset.singleton_subset_iff.2 (h x (List.mem_cons_self ..))) fun y hy =>
          h y (List.mem_cons_of_mem _ hy)

/-- A node of the first tree with active labels below both children. -/
def Branching (A : Finset Label) (u : Tree) : Prop :=
  ∃ q l r, u = .node q l r ∧ (l.labels ∩ A).Nonempty ∧ (r.labels ∩ A).Nonempty

/-- **From the active labels below a node** the search leads to a node that branches, with
the same labels below. -/
theorem finds_lcaSet_below {t : Tree} (ht : t ∈ Forest.subtrees [T .t1]) {S : List Label} (hS : Lists S (t.labels ∩ A))
    (htwo : 2 ≤ S.length) : Finds I (lcaSet .t1 S) fun r => ∃ w ∈ t.subtrees, r = some w.ptr ∧ Branching A w ∧
      w.labels ∩ A = t.labels ∩ A := by
  have hSA : ∀ x ∈ S, x ∈ A := fun x hx => (Finset.mem_inter.1 ((hS.2 x).1 hx)).2
  refine (finds_lcaSet_t1 hT hI hclear hA (fun h => by simp [h] at htwo) hSA).imp ?_
  rintro r ⟨w, hw, rfl, hall, hlow⟩
  have hwt := hlow t ht fun x hx => (Finset.mem_inter.1 ((hS.2 x).1 hx)).1
  have heq : w.labels ∩ A = t.labels ∩ A := (Finset.inter_subset_inter_right hwt).antisymm fun x hx =>
    Finset.mem_inter.2 ⟨hall x ((hS.2 x).2 hx), (Finset.mem_inter.1 hx).2⟩
  refine ⟨w, Forest.mem_subtrees_of_subset (hT .t1).distinct hw ht hwt, rfl, ?_, heq⟩
  have hcard : 2 ≤ (w.labels ∩ A).card := by rwa [heq, ← hS.length_eq]
  cases w with
  | leaf p l m =>
      have : ((Tree.leaf p l m).labels ∩ A).card ≤ (Tree.leaf p l m).labels.card :=
        Finset.card_le_card Finset.inter_subset_left
      rw [Tree.labels, Finset.card_singleton] at this
      rw [Tree.labels] at hcard
      omega
  | node q l r =>
      obtain ⟨hl, hr⟩ := Forest.mem_subtrees_children hw
      have hD := (hT .t1).distinct.of_mem_subtrees hw
      -- were one child empty, the node would not be the lowest
      have key : ∀ c d : Tree, c ∈ Forest.subtrees [T .t1] → (Tree.node q l r).labels = c.labels ∪ d.labels →
          Disjoint c.labels d.labels → (d.labels ∩ A).Nonempty := by
        intro c d hc hlab hdis
        by_contra hempty
        have hdA := Finset.not_nonempty_iff_eq_empty.1 hempty
        have hsub := hlow c hc fun x hx => by
          have hxw := hall x hx
          rw [hlab, Finset.mem_union] at hxw
          refine hxw.resolve_right fun hxd => ?_
          exact Finset.notMem_empty x (hdA ▸ Finset.mem_inter.2 ⟨hxd, hSA x hx⟩)
        obtain ⟨z, hz⟩ := d.labels_nonempty
        exact Finset.disjoint_left.1 hdis (hsub (hlab ▸ Finset.mem_union_right _ hz)) hz
      exact ⟨q, l, r, rfl, key r l hr (Finset.union_comm _ _) hD.2.2.symm, key l r hl rfl hD.2.2⟩

omit hclear hA in
/-- `orient` puts a set with two labels first. -/
theorem finds_orient {A C : List Label} (hAC : ∀ x ∈ A ++ C, x ∈ (T .t2).labels) (hthree : 3 ≤ A.length + C.length) :
    Finds I (orient A C) fun r => (r = (A, C) ∨ r = (C, A)) ∧ 2 ≤ r.1.length := by
  have hA := fun x hx => hAC x (List.mem_append_left C hx)
  have hC := fun x hx => hAC x (List.mem_append_right A hx)
  have hpick : ∀ {S S' : List Label}, (S, S') = (A, C) ∨ (S, S') = (C, A) → 2 ≤ S.length →
      Finds I (pure (S, S') : Run (List Label × List Label)) fun r => (r = (A, C) ∨ r = (C, A)) ∧ 2 ≤ r.1.length :=
    fun hor hlen => Finds.pure ⟨hor, hlen⟩
  refine (finds_lcaSet hT hI hAC).bind fun mu _ => (finds_lcaSet hT hI hA).bind fun muA _ =>
    Ends.ite (fun h => ?_) fun _ =>
    (finds_lcaSet hT hI hC).bind fun muC _ => Ends.ite (fun h => ?_) fun _ => Ends.ite (fun h => ?_) fun h =>
      Ends.ite (fun h' => ?_) fun h' => ?_
  · exact hpick (Or.inl rfl) (by simpa using h.2.1)
  · exact hpick (Or.inr rfl) (by simpa using h.2.1)
  · exact hpick (Or.inl rfl) (by simpa using h)
  · exact hpick (Or.inr rfl) (by simpa using h')
  · simp only [decide_eq_true_eq] at h h'
    omega

/-- The sets `R` and `B` are the active labels below two disjoint nodes of the first tree. -/
def IsSplit (T : Side → Tree) (A : Finset Label) (R B : List Label) : Prop :=
  ∃ w ∈ Forest.subtrees [T .t1], ∃ w' ∈ Forest.subtrees [T .t1], Disjoint w.labels w'.labels ∧ Lists R (w.labels ∩ A) ∧
    Lists B (w'.labels ∩ A) ∧ 2 ≤ R.length ∧ B ≠ []

omit hA in
/-- `childSets` lists the active labels below each child. -/
theorem finds_childSets : ∀ cs : List Tree, (∀ c ∈ cs, c ∈ Forest.subtrees [T .t1] ∧ (c.labels ∩ A).Nonempty) →
    Finds I (childSets (cs.map fun c => some c.ptr)) fun sets =>
      List.Forall₂ (fun S c => Lists S (c.labels ∩ A)) sets cs := by
  intro cs
  induction cs with
  | nil => exact fun _ => Finds.pure .nil
  | cons c cs ih =>
      intro hcs
      obtain ⟨hc, x, hx⟩ := hcs c (List.mem_cons_self ..)
      refine (finds_activeLabelsUnder hT hI hc).bind fun S hS =>
        (ih fun d hd => hcs d (List.mem_cons_of_mem _ hd)).bind fun sets hsets => Finds.pure ?_
      rw [hclear.activeAt_eq] at hS
      rw [if_neg (List.ne_nil_of_mem ((hS.2 x).2 hx))]
      exact .cons hS hsets

variable (hl : (T .t1).labels = (T .t2).labels) {checkCompat : Bool} (hfits : FitsKeys checkCompat (T .t1).labels)

include hl hfits

omit hclear in
/-- Two labels are compatible, so a set that is not has three. -/
theorem finds_compatible {S : List Label} (hS : S.Nodup) (hSA : ∀ x ∈ S, x ∈ A) :
    Finds I (compatible checkCompat S) fun b => b = false → 3 ≤ S.length := by
  refine Ends.get_bind fun s hs => ?_
  obtain ⟨b, hb, hthree⟩ := exists_compatibleSet (hT .t1) (hT .t2) hl hfits hS fun x hx => hA .t1 (hSA x hx)
  rw [(hI s hs).t1o, (hI s hs).t2o, hb]
  exact Ends.pure fun _ h => ⟨h ▸ hs, hthree⟩

/-- **The descent** from a node that branches and has three active labels below. -/
theorem finds_descend : ∀ (fuel : ℕ) (u : Tree), u ∈ Forest.subtrees [T .t1] → Branching A u →
    3 ≤ (u.labels ∩ A).card → u.subtrees.length ≤ fuel →
    Finds I (descend checkCompat fuel (some u.ptr)) fun r => ∃ R B, r = some (R, B) ∧ IsSplit T A R B := by
  intro fuel
  induction fuel with
  | zero =>
      intro u _ _ _ hle
      have := List.length_pos_of_mem u.mem_subtrees_self
      omega
  | succ fuel ih =>
      rintro u hu ⟨q, l, r, rfl, hlA, hrA⟩ hthree hle
      obtain ⟨hlF, hrF⟩ := Forest.mem_subtrees_children hu
      have hD := (hT .t1).distinct.of_mem_subtrees hu
      have hroot : ∀ c : Tree, c ∈ Forest.subtrees [T .t1] → (c.labels ∩ A).Nonempty → c.ptr ∉ K .t1 := by
        rintro c hc ⟨x, hx⟩ hK
        obtain ⟨hxc, hxA⟩ := Finset.mem_inter.1 hx
        exact Finset.disjoint_left.1 (hclear _ (cluster_ptr (hT .t1) hc ▸ Finset.mem_image_of_mem _ hK)) hxc hxA
      have hlen : (Tree.node q l r).subtrees.length = l.subtrees.length + r.subtrees.length + 1 := by
        simp [Tree.subtrees]
      -- one step down, to the lowest node around the labels of a child
      have hdown : ∀ (c : Tree) (S : List Label), c ∈ Forest.subtrees [T .t1] → c.subtrees.length ≤ fuel →
          Lists S (c.labels ∩ A) → 3 ≤ S.length →
          Ends (fun _ => False) I (do descend checkCompat fuel (← lcaSet .t1 S)) fun r s => I s ∧
            ∃ R B, r = some (R, B) ∧ IsSplit T A R B := by
        intro c S hc hcl hS hlenS
        refine (finds_lcaSet_below hT hI hclear hA hc hS (by omega)).bind ?_
        rintro r ⟨w, hw, rfl, hbr, heq⟩
        refine ih w (mem_subtrees_root.2 (Tree.subtrees_trans hw (mem_subtrees_root.1 hc))) hbr
          (by rw [heq, ← hS.length_eq]; exact hlenS) ?_
        exact (Tree.length_subtrees_le hw).trans hcl
      refine Ends.get_bind fun s hs => ?_
      have hcut := (hI s hs).cutAt .t1
      have hleft : (s.view .t1).leftChild q = some l.ptr := by
        rw [hcut.leftChild, (leftChild_ofForest (hT .t1)).2 ⟨l, r, hu, rfl⟩]
        simp [Option.filter, hroot l hlF hlA]
      have hright : (s.view .t1).rightChild q = some r.ptr := by
        rw [hcut.rightChild, (rightChild_ofForest (hT .t1)).2 ⟨l, r, hu, rfl⟩]
        simp [Option.filter, hroot r hrF hrA]
      dsimp only [Tree.ptr_node]
      rw [hleft, hright]
      refine Ends.conseq (P := I) ((finds_childSets hT hI hclear [l, r] ?_).bind fun sets hsets => ?_)
        (fun _ h => h ▸ hs)
        fun _ _ h => h
      · simp [hlF, hrF, hlA, hrA]
      cases hsets with
      | cons hSA hsets =>
          cases hsets with
          | cons hSC hsets =>
              cases hsets
              rename_i SA SC
              have hAmem : ∀ x ∈ SA, x ∈ A := fun x hx => (Finset.mem_inter.1 ((hSA.2 x).1 hx)).2
              have hCmem : ∀ x ∈ SC, x ∈ A := fun x hx => (Finset.mem_inter.1 ((hSC.2 x).1 hx)).2
              have hne : ∀ {S : List Label} {X : Finset Label}, Lists S X → X.Nonempty → S ≠ [] := fun hS hX =>
                List.ne_nil_of_mem ((hS.2 _).2 hX.choose_spec)
              have hsum : 3 ≤ SA.length + SC.length := by
                rw [hSA.length_eq, hSC.length_eq]
                refine hthree.trans ?_
                rw [Tree.labels, Finset.union_inter_distrib_right]
                exact Finset.card_union_le _ _
              have hrest : ∀ okA ok : Bool, (okA = false → 3 ≤ SA.length) →
                  (ok = false → okA = true → 3 ≤ SC.length) →
                  Ends (fun _ => False) I (if ok then some <$> orient SA SC else do
                    descend checkCompat fuel (← lcaSet .t1 (if okA then SC else SA))) fun r s => I s ∧
                      ∃ R B, r = some (R, B) ∧ IsSplit T A R B := by
                intro okA ok hlenA hlenC
                refine Ends.ite (fun _ => ?_) fun hok => ?_
                · have hT₂ : ∀ x ∈ SA ++ SC, x ∈ (T .t2).labels := fun x hx =>
                    hA .t2 ((List.mem_append.1 hx).elim (hAmem x) (hCmem x))
                  rw [map_eq_pure_bind]
                  refine (finds_orient hT hI hT₂ hsum).bind fun RB hRB => Finds.pure ⟨RB.1, RB.2, rfl, ?_⟩
                  obtain ⟨rfl | rfl, htwo⟩ := hRB
                  · exact ⟨l, hlF, r, hrF, hD.2.2, hSA, hSC, htwo, hne hSC hrA⟩
                  · exact ⟨r, hrF, l, hlF, hD.2.2.symm, hSC, hSA, htwo, hne hSA hlA⟩
                · cases okA with
                  | true => exact hdown r SC hrF (by omega) hSC (hlenC (Bool.eq_false_iff.2 hok) rfl)
                  | false => exact hdown l SA hlF (by omega) hSA (hlenA rfl)
              refine (finds_compatible hT hI hA hl hfits hSA.1 hAmem).bind fun okA hokA => Ends.ite (fun h => ?_)
                fun h => ?_
              · exact (finds_compatible hT hI hA hl hfits hSC.1 hCmem).bind fun ok hok => hrest okA ok hokA
                  fun h' _ => hok h'
              · exact hrest okA false hokA fun _ h' => absurd h' h

/-- **`findMinIncompat` finds two disjoint sets**, the first with two active labels or more,
when three labels are active. -/
theorem finds_findMinIncompat {order : Finset Label → List Label} (horder : ∀ X, Lists (order X) X)
    (hthree : 3 ≤ A.card) :
    Finds I (findMinIncompat checkCompat order) fun r => ∃ R B, r = some (R, B) ∧ IsSplit T A R B := by
  refine Ends.get_bind fun s hs => ?_
  rw [(hI s hs).active]
  have hlen := (horder A).length_eq
  have hroot : T .t1 ∈ Forest.subtrees [T .t1] := mem_subtrees_root.2 (Tree.mem_subtrees_self _)
  have hinter : (T .t1).labels ∩ A = A := Finset.inter_eq_right.2 (hA .t1)
  refine Ends.conseq (P := I) (Ends.ite (fun h => by omega) fun _ => (finds_height hI).bind fun n hn => ?_)
    (fun _ h => h ▸ hs) fun _ _ h => h
  refine (finds_lcaSet_below hT hI hclear hA hroot (S := order A) (hinter.symm ▸ horder A) (by omega)).bind ?_
  rintro r ⟨w, hw, rfl, hbr, heq⟩
  refine finds_descend hT hI hclear hA hl hfits n w (mem_subtrees_root.2 hw) hbr (by rw [heq, hinter]; exact hthree) ?_
  exact hn ▸ length_subtrees_le (cutAt_ofForest [T .t1]) (mem_subtrees_root.2 hw)

end Descent

end RedBlue2
end Approx
end Maf
