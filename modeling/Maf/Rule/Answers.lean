/-
# Answers, back through the rules

What is left of the forests at the end of a search answers the forests before it: forest 0 falls into
trees that it induces, the blocks of an agreement forest of all of them (`Memory.Answer`).

A rule of `src/Solver/Rule/*.cpp` that cuts edges leaves no answers but those of the forests it was
applied to (`Cuts`); each part of such an `apply` is known once, and a loop keeps what its body keeps.
`EqualPairReductionRule` collapses a cherry in every forest; its `unapply`, at the end of the search,
makes an answer of the forests before the rule out of one of the forests after it.
-/

import Maf.Action.CutFrame
import Maf.Rule.SubtreeOptimum
import Maf.Rule.Warranted

namespace Maf

open EarlyExit Prog
open Graph Body

/-- **What a rule leaves of a forest**: the forest itself, or fewer nodes. -/
def Forest.Trimmed (F G : Forest) : Prop := G = F ∨ G.ptrs.length < F.ptrs.length

section Trimmed

variable {F G H : Forest} {Fs Gs Hs : List Forest} {i : ℕ}

/-- A forest is trimmed by nothing. -/
theorem Forest.Trimmed.refl (F : Forest) : F.Trimmed F := Or.inl rfl

/-- Trimming twice is trimming. -/
theorem Forest.Trimmed.trans (h : F.Trimmed G) (h' : G.Trimmed H) : F.Trimmed H := by
  rcases h with rfl | hlt
  · exact h'
  rcases h' with rfl | hlt'
  · exact Or.inr hlt
  · exact Or.inr (hlt'.trans hlt)

/-- A cut trims the forest. -/
theorem Forest.cut_trimmed (hF : F.Valid) (u : Tree) : F.Trimmed (F.cut u) := by
  unfold cut
  cases hcut : F.deleteEdge u with
  | none => exact .refl F
  | some F' =>
      have := length_ptrs_deleteEdge hF hcut
      exact Or.inr (by rw [Option.getD_some]; omega)

/-- A node that is no root is cut off. -/
theorem Forest.length_cut_lt (hF : F.Valid) {u : Tree} (hu : u ∈ F.subtrees) (hroot : u ∉ F) :
    (F.cut u).ptrs.length < F.ptrs.length := by
  obtain ⟨F', hcut⟩ := exists_deleteEdge hF.distinct hu hroot
  have := length_ptrs_deleteEdge hF hcut
  rw [cut_of_deleteEdge hcut]
  omega

/-- Collapsing a node of a tree frees nodes. -/
theorem Tree.length_collapse_lt {t : Tree} {p : Ptr} {l r : Tree} (h : Tree.node p l r ∈ t.subtrees) :
    (t.collapse p).ptrs.length < t.ptrs.length := by
  induction t with
  | leaf => simp [Tree.subtrees] at h
  | node q l' r' ihl ihr =>
      rw [Tree.collapse]
      have hpos : 0 < l'.ptrs.length := List.length_pos_of_mem (Tree.ptr_mem_ptrs l'.mem_subtrees_self)
      split_ifs with hq
      · simp only [Tree.collapsed, Tree.ptrs, List.length_cons, List.length_append, List.length_nil]
        omega
      · have hl := (Tree.ptrs_collapse p l').length_le
        have hr := (Tree.ptrs_collapse p r').length_le
        simp only [Tree.ptrs, List.length_cons, List.length_append]
        rcases Tree.mem_subtrees_node.1 h with heq | hmem | hmem
        · cases heq
          exact absurd rfl hq
        · have := ihl hmem
          omega
        · have := ihr hmem
          omega

/-- A pair that is collapsed. -/
theorem Forest.length_collapse_lt {p : Ptr} {l r : Tree} (h : Tree.node p l r ∈ F.subtrees) :
    (F.collapse p).ptrs.length < F.ptrs.length := by
  induction F with
  | nil => cases h
  | cons t F ih =>
      have hle := (Tree.ptrs_collapse p t).length_le
      have hle' := (Forest.ptrs_collapse p F).length_le
      simp only [collapse, List.map_cons, ptrs, List.flatMap_cons, List.length_append] at ih hle' ⊢
      rcases List.mem_append.1 h with hmem | hmem
      · have := Tree.length_collapse_lt hmem
        omega
      · have := ih hmem
        omega

/-- Forests are trimmed by nothing. -/
theorem trimmed_refl (Fs : List Forest) : List.Forall₂ Forest.Trimmed Fs Fs :=
  List.forall₂_same.2 fun F _ => .refl F

/-- Trimming all forests twice is trimming them. -/
theorem trimmed_trans (h : List.Forall₂ Forest.Trimmed Fs Gs) (h' : List.Forall₂ Forest.Trimmed Gs Hs) :
    List.Forall₂ Forest.Trimmed Fs Hs := by
  induction h generalizing Hs with
  | nil => exact h'
  | cons hFG _ ih =>
      cases h' with
      | cons hGH hrest => exact .cons (hFG.trans hGH) (ih hrest)

/-- Trimming one forest trims the forests. -/
theorem trimmed_set (hF : Fs[i]? = some F) (h : F.Trimmed G) :
    List.Forall₂ Forest.Trimmed Fs (Fs.set i G) := by
  induction Fs generalizing i with
  | nil => exact .nil
  | cons F' Fs ih =>
      cases i with
      | zero =>
          obtain rfl := Option.some.inj hF
          exact .cons h (trimmed_refl Fs)
      | succ i => exact .cons (.refl F') (ih hF)

end Trimmed

/-- **What is left of the forests `Fs`**, which the memory `m` holds: the forests `Gs` in the memory `M`. -/
structure Memory.Remnants (width : ℕ) (m : Memory) (Fs : List Forest) (M : Memory)
    (Gs : List Forest) : Prop where
  length : M.forests.length = Gs.length
  length_eq : Gs.length = Fs.length
  remnant : ∀ {i : ℕ} {s s₁ : Store} {F G : Forest}, m.forests[i]? = some s → Fs[i]? = some F →
    M.forests[i]? = some s₁ → Gs[i]? = some G → Forest.Remnant width s F s₁ G

/-- **An answer for the forests `Fs`**: of forest 0 there are `k` trees left, the blocks of an
agreement forest. -/
structure Memory.Answer (width : ℕ) (X : Finset Label) (m : Memory) (Fs : List Forest) (M : Memory)
    (Gs : List Forest)
    (k : ℕ) : Prop extends Memory.Remnants width m Fs M Gs where
  blocks : ∃ f : Label → Label, IsAgreement X (Instance.clusters Fs) f ∧
    ∀ F G, Fs[0]? = some F → Gs[0]? = some G → F.Induced G ∧ G.HasBlocks f ∧ G.length = k

section Cuts

variable {width fuel i k : ℕ} {X : Finset Label} {m M : Memory} {Fs Hs : List Forest} {F : Forest}
  {s s' : Store}

/-- The hierarchies of the forests in memory. -/
theorem Memory.Holds.hierarchy (hm : m.Holds width fuel Fs) (hX : ∀ F ∈ Fs, F.labels = X) :
    ∀ C ∈ Instance.clusters Fs, Hierarchy X C := by
  intro C hC
  obtain ⟨F, hF, rfl⟩ := Instance.mem_clusters.1 hC
  obtain ⟨i, hi⟩ := List.mem_iff_getElem?.1 hF
  obtain ⟨s, -, hheld⟩ := hm.get hi
  have := Forest.hierarchy hheld.wellFormed.valid.distinct
  rwa [hX F hF] at this

/-- **What answers a cut forest, answers the forest.** -/
theorem Memory.Answer.of_cut (hm : m.Holds width fuel Fs) (hX : ∀ F ∈ Fs, F.labels = X)
    (hF : Fs[i]? = some F)
    (hs : m.forests[i]? = some s) {u : Tree} (hu : u ∈ F.subtrees) {a : DeleteEdgeAction}
    (hdo : DeleteEdgeAction.doAction fuel u.ptr s = some (a, s'))
    (h : Memory.Answer width X { m with forests := m.forests.set i s' } (Fs.set i (F.cut u)) M Hs k) :
    m.Answer width X Fs M Hs k := by
  obtain ⟨hlt, rfl⟩ := List.getElem?_eq_some_iff.1 hs
  have hlt' : i < Fs.length := (List.getElem?_eq_some_iff.1 hF).1
  have hheld := hm.held hs hF
  have hv := hheld.wellFormed.valid
  refine ⟨⟨h.length, h.length_eq.trans List.length_set, fun {j t s₁ G H} ht hG hs₁ hH => ?_⟩, ?_⟩
  · by_cases hij : i = j
    · subst hij
      obtain rfl := Option.some.inj (hs.symm.trans ht)
      obtain rfl := Option.some.inj (hF.symm.trans hG)
      exact (h.remnant (List.getElem?_set_self hlt) (List.getElem?_set_self hlt') hs₁ hH).of_cut hheld.wellFormed hu hdo
    · exact h.remnant (by rwa [List.getElem?_set_ne hij]) (by rwa [List.getElem?_set_ne hij]) hs₁ hH
  · obtain ⟨f, hf, hblocks⟩ := h.blocks
    have hset : Instance.clusters (Fs.set i (F.cut u)) = (Instance.clusters Fs).set i (cutAt u.labels F.clusters) := by
      rw [Instance.clusters, List.map_set, (Forest.cut_spec hv hu).2.2]
      rfl
    rw [hset] at hf
    refine ⟨f, hf.of_cutAt (hm.hierarchy hX) ?_ (Forest.labels_mem_clusters hu), fun G H hG hH => ?_⟩
    · rw [Instance.clusters, List.getElem?_map, hF]
      rfl
    · by_cases hi : i = 0
      · subst hi
        obtain rfl := Option.some.inj (hF.symm.trans hG)
        obtain ⟨hind, hrest⟩ := hblocks _ H (List.getElem?_set_self hlt') hH
        exact ⟨hind.of_cut hv hu, hrest⟩
      · exact hblocks G H (by rwa [List.getElem?_set_ne hi]) hH

/-- **A part of an `apply` that cuts**: the forests are held again, trimmed, with their labels, and what
answers them answers those from before. -/
def Cuts (width fuel : ℕ) (X : Finset Label) (y z : RuleObject × Memory) : Prop :=
  ∀ Fs : List Forest, y.2.Holds width fuel Fs → (∀ F ∈ Fs, F.labels = X) → ∃ Gs : List Forest,
    z.2.Holds width fuel Gs ∧ (∀ G ∈ Gs, G.labels = X) ∧ List.Forall₂ Forest.Trimmed Fs Gs ∧
      ∀ M Hs k, z.2.Answer width X Gs M Hs k → y.2.Answer width X Fs M Hs k

instance : Std.Refl (Cuts width fuel X) :=
  ⟨fun _ Fs hm hX => ⟨Fs, hm, hX, trimmed_refl Fs, fun _ _ _ h => h⟩⟩

instance : IsTrans (RuleObject × Memory) (Cuts width fuel X) := by
  refine ⟨fun x y z hxy hyz Fs hm hX => ?_⟩
  obtain ⟨Gs, hm', hX', htrim, hback⟩ := hxy Fs hm hX
  obtain ⟨Gs', hm'', hX'', htrim', hback'⟩ := hyz Gs hm' hX'
  exact ⟨Gs', hm'', hX'', trimmed_trans htrim htrim', fun M Hs k h => hback M Hs k (hback' M Hs k h)⟩

/-- Protections do not matter. -/
theorem cuts_of_forests {y z : RuleObject × Memory} (h : z.2.forests = y.2.forests) :
    Cuts width fuel X y z :=
  fun Fs hm hX => ⟨Fs, ⟨h ▸ hm.length, fun hs => hm.held (h ▸ hs)⟩, hX, trimmed_refl Fs, fun _ _ _ hans =>
    ⟨⟨hans.length, hans.length_eq, fun hs => hans.remnant (h.symm ▸ hs)⟩, hans.blocks⟩⟩

end Cuts

namespace Body

/-- **Wherever the program comes to an end, `R` relates the states before and after.** -/
def Only (R : RuleObject × Memory → RuleObject × Memory → Prop) (f : Body) : Prop :=
  ∀ y b z, f y = some (b, z) → R y z

section Only

variable {R : RuleObject × Memory → RuleObject × Memory → Prop} {f g : Body}

/-- A part that does nothing. -/
theorem only_skip [Std.Refl R] : Only R skip := by
  intro y b z h
  obtain ⟨-, rfl⟩ := Prod.mk.inj (Option.some.inj h)
  exact Std.Refl.refl _

/-- Nothing may come after a part. -/
theorem seq_skip (f : Body) : f.seq skip = f := by
  funext y
  rw [Prog.seq]
  split
  · next h => exact h.symm
  · next h => exact h.symm
  · next h => exact h.symm

/-- Two parts after each other. -/
theorem Only.seq [IsTrans (RuleObject × Memory) R] (hf : Only R f) (hg : Only R g) :
    Only R (f.seq g) := by
  intro y b z h
  rw [Prog.seq] at h
  split at h
  · cases h
  · next y' hrun =>
      obtain ⟨-, rfl⟩ := Prod.mk.inj (Option.some.inj h)
      exact hf _ _ _ hrun
  · next y' hrun => exact IsTrans.trans _ _ _ (hf _ _ _ hrun) (hg _ _ _ h)

variable [Std.Refl R] [IsTrans (RuleObject × Memory) R]

/-- A loop over a list. -/
theorem Only.forEach {α : Type*} {f : α → Body} {l : List α} (h : ∀ x ∈ l, Only R (f x)) :
    Only R (Prog.forEach f l) := by
  induction l with
  | nil => exact only_skip
  | cons x l ih =>
      exact (h x (List.mem_cons_self ..)).seq (ih fun y hy => h y (List.mem_cons_of_mem _ hy))

/-- A loop over the forests. -/
theorem Only.forEachForest {f : ℕ → Body} (h : ∀ i, Only R (f i)) : Only R (forEachForest f) :=
  fun y => Only.forEach (fun i _ => h i) y

end Only

section Parts

variable {width fuel i k : ℕ} {X : Finset Label} {m M : Memory} {Fs Hs : List Forest} {F : Forest}

/-- **A node that is no root is cut off**, or its edge is protected. -/
theorem cutNode_answer (hm : m.Holds width fuel Fs) (hX : ∀ F ∈ Fs, F.labels = X)
    (hF : Fs[i]? = some F) {u : Tree}
    (hu : u ∈ F.subtrees) (hroot : u ∉ F) {r : RuleObject} {b : Bool} {z : RuleObject × Memory}
    (h : cutNode fuel i u.ptr (r, m) = some (b, z)) :
    ∃ G, z.2.Holds width fuel (Fs.set i G) ∧ G.labels = F.labels ∧ F.Trimmed G ∧ (b = false → G = F.cut u) ∧
      ∀ M Hs k, z.2.Answer width X (Fs.set i G) M Hs k → m.Answer width X Fs M Hs k := by
  obtain ⟨hlt, rfl⟩ := List.getElem?_eq_some_iff.1 hF
  simp only [cutNode] at h
  split_ifs at h
  · obtain ⟨rfl, rfl⟩ := Prod.mk.inj (Option.some.inj h)
    refine ⟨Fs[i], ?_, rfl, .refl _, fun h => absurd h Bool.noConfusion, ?_⟩
    · rwa [List.set_getElem_self]
    · rw [List.set_getElem_self]
      exact fun _ _ _ h => h
  · obtain ⟨s, hs, hheld⟩ := hm.get hF
    obtain ⟨action, s', F', hdo, -⟩ := hheld.deleteEdge hu hroot
    obtain ⟨action', s'', -, hrun, hm', -⟩ := deleteEdge_eq hm hF hu hroot r
    have hrun' : deleteEdge fuel i u.ptr (r, m) = some (false, { r with changes := .deleteEdge i action :: r.changes },
        { m with forests := m.forests.set i s' }) := by
      simp only [deleteEdge, hs, hdo, Option.bind_eq_bind, Option.bind_some]
    obtain ⟨-, hz⟩ := Prod.mk.inj (Option.some.inj (h.symm.trans hrun'))
    obtain ⟨-, hz'⟩ := Prod.mk.inj (Option.some.inj (h.symm.trans hrun))
    have hmem := (Prod.mk.inj (hz.symm.trans hz')).2
    rw [← hmem] at hm'
    rw [hz]
    exact ⟨Fs[i].cut u, hm', (Forest.cut_spec hheld.wellFormed.valid hu).2.1,
      Forest.cut_trimmed hheld.wellFormed.valid u, fun _ => rfl, fun M Hs k h => h.of_cut hm hX hF hs hu hdo⟩

/-- The labels of the forests when one is replaced. -/
theorem labels_set {G : Forest} (hX : ∀ F ∈ Fs, F.labels = X) (hF : Fs[i]? = some F)
    (hG : G.labels = F.labels) :
    ∀ H ∈ Fs.set i G, Forest.labels H = X := by
  intro H hH
  rcases List.mem_or_eq_of_mem_set hH with hH | rfl
  · exact hX H hH
  · exact hG.trans (hX F (List.mem_of_getElem? hF))

/-- **The terminal of a label is cut off**, and then what comes next. -/
theorem cutTerminal_cuts {x : Label} (hx : x ∈ X) {g : Body} (hg : Only (Cuts width fuel X) g) :
    Only (Cuts width fuel X) (withTerminal x i fun node => ifChild i node ((cutNode fuel i node).seq g)) := by
  rintro ⟨r, m⟩ b z h Fs hm hX
  obtain ⟨s, hs, -⟩ := Option.bind_eq_some_iff.1 h
  obtain ⟨F, hF, hheld⟩ := hm.forest hs
  obtain ⟨p, merged, hleaf, heq⟩ := withTerminal_eq hm hF (hX F (List.mem_of_getElem? hF) ▸ hx)
  rw [heq, show p = (Tree.leaf p x merged).ptr from rfl, ifChild_eq hm hF hleaf] at h
  split_ifs at h with hroot
  · exact only_skip (R := Cuts width fuel X) _ _ _ h Fs hm hX
  · have hcut : Only (fun y z => y = (r, m) → Cuts width fuel X y z) (cutNode fuel i (Tree.leaf p x merged).ptr) := by
      rintro y b z hrun rfl Fs' hm' hX'
      obtain rfl := hm'.read.symm.trans hm.read
      obtain ⟨G, hm'', hlab, htrim, -, hback⟩ := cutNode_answer hm hX hF hleaf hroot hrun
      exact ⟨_, hm'', labels_set hX hF hlab, trimmed_set hF htrim, hback⟩
    rw [Prog.seq] at h
    split at h
    · cases h
    · next y' hrun =>
        obtain ⟨-, rfl⟩ := Prod.mk.inj (Option.some.inj h)
        exact hcut _ _ _ hrun rfl Fs hm hX
    · next y' hrun => exact IsTrans.trans _ _ _ (hcut _ _ _ hrun rfl) (hg _ _ _ h) Fs hm hX

/-- **The terminal of a label is cut off.** -/
theorem cutLabel_cuts {x : Label} (hx : x ∈ X) : Only (Cuts width fuel X) (cutLabel fuel x i) := by
  have hcut : Only (Cuts width fuel X) (withTerminal x i fun node => ifChild i node ((cutNode fuel i node).seq skip)) :=
    cutTerminal_cuts hx only_skip
  simp only [seq_skip] at hcut
  exact hcut

/-- An edge is protected. -/
theorem protectNode_cuts (x : Label) : Only (Cuts width fuel X) (withTerminal x i (protectNode i)) := by
  rintro ⟨r, m⟩ b z h
  obtain ⟨s, hs, h⟩ := Option.bind_eq_some_iff.1 h
  obtain ⟨p, -, h⟩ := Option.bind_eq_some_iff.1 h
  refine cuts_of_forests ?_
  simp only [protectNode] at h
  split_ifs at h
  · obtain ⟨-, rfl⟩ := Prod.mk.inj (Option.some.inj h)
    rfl
  · obtain ⟨-, rfl⟩ := Prod.mk.inj (Option.some.inj h)
    rfl

end Parts

end Body

namespace ABCBranchingRule

open Forest

variable {width fuel i : ℕ} {X : Finset Label} {a c : Label}

/-- **The subtrees of one forest are cut off**, up to a protected edge. -/
theorem cutNodes_answer {F : Forest} {B : List Tree} (h : Hung F a c B) {Fs : List Forest}
    {m : Memory} {r : RuleObject}
    (hm : m.Holds width fuel Fs) (hX : ∀ F ∈ Fs, F.labels = X) (hF : Fs[i]? = some F) {b : Bool}
    {z : RuleObject × Memory} (hrun : forEach (cutNode fuel i) (B.map Tree.ptr) (r, m) = some (b, z)) :
    ∃ G, z.2.Holds width fuel (Fs.set i G) ∧ G.labels = F.labels ∧ F.Trimmed G ∧
      ∀ M Hs k, z.2.Answer width X (Fs.set i G) M Hs k → m.Answer width X Fs M Hs k := by
  induction B generalizing F Fs m r with
  | nil =>
      obtain ⟨-, rfl⟩ := Prod.mk.inj (Option.some.inj hrun)
      obtain ⟨hi, rfl⟩ := List.getElem?_eq_some_iff.1 hF
      refine ⟨Fs[i], ?_, rfl, .refl _, ?_⟩ <;> rw [List.set_getElem_self]
      · exact hm
      · exact fun _ _ _ h => h
  | cons u B ih =>
      have hi : i < Fs.length := (List.getElem?_eq_some_iff.1 hF).1
      obtain ⟨s, -, hheld⟩ := hm.get hF
      have hv := hheld.wellFormed.valid
      have hu := h.mem u (List.mem_cons_self ..)
      rw [List.map_cons, forEach, Prog.seq] at hrun
      split at hrun
      · cases hrun
      · next y hcut =>
          obtain ⟨-, rfl⟩ := Prod.mk.inj (Option.some.inj hrun)
          obtain ⟨G, hm', hlab, htrim, -, hback⟩ :=
            cutNode_answer hm hX hF hu (h.not_root hv.distinct) hcut
          exact ⟨G, hm', hlab, htrim, hback⟩
      · next y hcut =>
          obtain ⟨G, hm', hlab, htrim, hG, hback⟩ :=
            cutNode_answer hm hX hF hu (h.not_root hv.distinct) hcut
          obtain rfl := hG rfl
          obtain ⟨r', m'⟩ := y
          obtain ⟨G, hm'', hlab', htrim', hback'⟩ :=
            ih (h.cut hv) hm' (labels_set hX hF hlab) (List.getElem?_set_self hi) hrun
          rw [List.set_set] at hm'' hback'
          exact ⟨G, hm'', hlab'.trans hlab, htrim.trans htrim', fun M Hs k h => hback M Hs k (hback' M Hs k h)⟩

/-- **The first branch leaves no answers but those of the forests before it.** -/
theorem joinPair_answer {fs : List Forest} {bs : List (ℕ × List Ptr)} (h : Collected a c i fs bs)
    {done : List Forest}
    (hi : done.length = i) {m : Memory} {r : RuleObject} (hm : m.Holds width fuel (done ++ fs))
    (hX : ∀ F ∈ done ++ fs, F.labels = X) {b : Bool} {z : RuleObject × Memory}
    (hrun : forEach (fun e : ℕ × List Ptr => forEach (cutNode fuel e.1) e.2) bs (r, m) = some (b, z)) :
    ∃ Gs : List Forest, z.2.Holds width fuel Gs ∧ (∀ G ∈ Gs, G.labels = X) ∧
      List.Forall₂ Forest.Trimmed (done ++ fs) Gs ∧
      ∀ M Hs k, z.2.Answer width X Gs M Hs k → m.Answer width X (done ++ fs) M Hs k := by
  induction h generalizing done m r with
  | nil i =>
      obtain ⟨-, rfl⟩ := Prod.mk.inj (Option.some.inj hrun)
      exact ⟨_, hm, hX, trimmed_refl _, fun _ _ _ h => h⟩
  | @siblings i F fs bs hcl hcol ih =>
      rw [List.append_cons] at hm hX ⊢
      exact ih (by simp [hi]) hm hX hrun
  | @between i F fs B bs hB hcol ih =>
      have hF : (done ++ F :: fs)[i]? = some F := by simp [← hi]
      rw [forEach, Prog.seq] at hrun
      split at hrun
      · cases hrun
      · next y hcut =>
          obtain ⟨-, rfl⟩ := Prod.mk.inj (Option.some.inj hrun)
          obtain ⟨G, hm', hlab, htrim, hback⟩ := cutNodes_answer (Hung.of_pathNodes hB) hm hX hF hcut
          exact ⟨_, hm', labels_set hX hF hlab, trimmed_set hF htrim, hback⟩
      · next y hcut =>
          obtain ⟨G, hm', hlab, htrim, hback⟩ := cutNodes_answer (Hung.of_pathNodes hB) hm hX hF hcut
          have hX' := labels_set hX hF hlab
          have htrim' := trimmed_set hF htrim
          have hset : (done ++ F :: fs).set i G = (done ++ [G]) ++ fs := by
            rw [← hi, List.set_append_right _ _ le_rfl, Nat.sub_self, List.set_cons_zero, List.append_cons]
          rw [hset] at hm' hX' htrim' hback
          obtain ⟨r', m'⟩ := y
          obtain ⟨Gs, hm'', hX'', htrim'', hback'⟩ := ih (by simp [hi]) hm' hX' hrun
          exact ⟨Gs, hm'', hX'', trimmed_trans htrim' htrim'', fun M Hs k h => hback M Hs k (hback' M Hs k h)⟩

end ABCBranchingRule

namespace ForcedCherryCutRule

variable {width fuel i : ℕ} {X : Finset Label} {Fs : List Forest} {m : Memory}

/-- A node is cut off, unless it is a root. -/
theorem cutChild_answer (hm : m.Holds width fuel Fs) (hX : ∀ F ∈ Fs, F.labels = X) {F : Forest}
    (hF : Fs[i]? = some F)
    {u : Tree} (hu : u ∈ F.subtrees) {r : RuleObject} {b : Bool} {z : RuleObject × Memory}
    (hrun : ifChild i u.ptr (deleteEdge fuel i u.ptr) (r, m) = some (b, z)) :
    b = false ∧ z.2.Holds width fuel (Fs.set i (F.cut u)) ∧ (∀ G ∈ Fs.set i (F.cut u), Forest.labels G = X) ∧
      ∀ M Hs k, z.2.Answer width X (Fs.set i (F.cut u)) M Hs k → m.Answer width X Fs M Hs k := by
  obtain ⟨s, hs, hheld⟩ := hm.get hF
  obtain ⟨y, hrun', -, hm'⟩ := cutChild_run hm hF hu r
  obtain ⟨rfl, rfl⟩ := Prod.mk.inj (Option.some.inj (hrun.symm.trans hrun'))
  refine ⟨rfl, hm', labels_set hX hF (Forest.cut_spec hheld.wellFormed.valid hu).2.1, ?_⟩
  rw [ifChild_eq hm hF hu] at hrun
  split_ifs at hrun with hroot
  · obtain ⟨-, rfl⟩ := Prod.mk.inj (Option.some.inj hrun)
    rw [Forest.cut_of_mem hheld.wellFormed.valid hroot]
    obtain ⟨hi, rfl⟩ := List.getElem?_eq_some_iff.1 hF
    rw [List.set_getElem_self]
    exact fun _ _ _ h => h
  · obtain ⟨action, s', F', hdo, -⟩ := hheld.deleteEdge hu hroot
    simp only [deleteEdge, hs, hdo, Option.bind_eq_bind, Option.bind_some] at hrun
    obtain ⟨-, rfl⟩ := Prod.mk.inj (Option.some.inj hrun)
    exact fun M Hs k h => h.of_cut hm hX hF hs hu hdo

/-- **The three cuts** leave no answers but those of the forests before them. -/
theorem apply_answer {a c : Label} (hfit : (Rule.forcedCherryCut a c).Fits 0 Fs X)
    (hm : m.Holds width fuel Fs)
    (hX : ∀ F ∈ Fs, F.labels = X) {r : RuleObject} {b : Bool} {z : RuleObject × Memory}
    (hrun : ForcedCherryCutRule.apply fuel a c (r, m) = some (b, z)) :
    ∃ Gs : List Forest, z.2.Holds width fuel Gs ∧ (∀ G ∈ Gs, G.labels = X) ∧ List.Forall₂ Forest.Trimmed Fs Gs ∧
      (b = false → Gs ≠ Fs) ∧ ∀ M Hs k, z.2.Answer width X Gs M Hs k → m.Answer width X Fs M Hs k := by
  obtain ⟨ha, hc, F, hF, hroot⟩ := hfit
  obtain ⟨s, hs, hheld⟩ := hm.get hF
  have hv := hheld.wellFormed.valid
  have hlab := hX F (List.mem_of_getElem? hF)
  obtain ⟨p, ma, haF, heqa⟩ := withTerminal_eq hm hF (hlab ▸ ha)
  obtain ⟨q, mc, hcF, heqc⟩ := withTerminal_eq hm hF (hlab ▸ hc)
  obtain ⟨o, ho, hsib⟩ := hheld.sibling haF (hroot p ma)
  rw [Tree.ptr_leaf] at hsib
  rw [ForcedCherryCutRule.apply, heqa, heqc] at hrun
  simp only [hs, hsib, Option.bind_eq_bind, Option.bind_some] at hrun
  split_ifs at hrun
  · obtain ⟨rfl, rfl⟩ := Prod.mk.inj (Option.some.inj hrun)
    exact ⟨Fs, hm, hX, trimmed_refl Fs, fun h => absurd h.symm Bool.false_ne_true, fun _ _ _ h => h⟩
  -- each cut works on what the one before has left
  have hi : 1 < Fs.length := (List.getElem?_eq_some_iff.1 hF).1
  obtain ⟨u, -, -, -, -, hoF, -, hd⟩ := Forest.exists_of_sibling hv.distinct ho
  obtain ⟨hv₁, -, -⟩ := Forest.cut_spec hv haF
  have ho₁ := Forest.mem_subtrees_cut hv hoF (Or.inr hd.symm)
  obtain ⟨hv₂, -, -⟩ := Forest.cut_spec hv₁ ho₁
  have hc₂ := (Forest.leaf_mem_cut (c := o) hv₁).2 ((Forest.leaf_mem_cut (c := .leaf p a ma) hv).2 hcF)
  obtain ⟨⟨r₁, m₁⟩, hrun₁, -, -⟩ := cutChild_run hm hF haF r
  obtain ⟨-, hm₁, hX₁, hback₁⟩ := cutChild_answer hm hX hF haF hrun₁
  obtain ⟨⟨r₂, m₂⟩, hrun₂, -, -⟩ := cutChild_run hm₁ (List.getElem?_set_self hi) ho₁ r₁
  obtain ⟨-, hm₂, hX₂, hback₂⟩ := cutChild_answer hm₁ hX₁ (List.getElem?_set_self hi) ho₁ hrun₂
  rw [List.set_set] at hm₂ hX₂ hback₂
  obtain ⟨⟨r₃, m₃⟩, hrun₃, -, -⟩ := cutChild_run hm₂ (List.getElem?_set_self hi) hc₂ r₂
  obtain ⟨-, hm₃, hX₃, hback₃⟩ := cutChild_answer hm₂ hX₂ (List.getElem?_set_self hi) hc₂ hrun₃
  rw [List.set_set] at hm₃ hX₃ hback₃
  rw [Tree.ptr_leaf] at hrun₁ hrun₃
  simp only [forEach, Prog.seq, hrun₁, hrun₂, hrun₃, Prog.skip] at hrun
  obtain ⟨-, rfl⟩ := Prod.mk.inj (Option.some.inj hrun)
  have hlt := Forest.length_cut_lt hv haF (hroot p ma)
  have htrim := (Forest.cut_trimmed hv₁ o).trans (Forest.cut_trimmed hv₂ (.leaf q c mc))
  refine ⟨_, hm₃, hX₃, trimmed_set hF ((Forest.cut_trimmed hv (.leaf p a ma)).trans htrim), fun _ heq => ?_,
    fun M Hs k h => hback₁ M Hs k (hback₂ M Hs k (hback₃ M Hs k h))⟩
  -- the first cut takes a node out
  rw [← heq, List.getElem?_set_self hi, Option.some.injEq] at hF
  rcases htrim with he | hlt'
  · rw [hF] at he
    rw [← he] at hlt
    exact absurd hlt (lt_irrefl _)
  · rw [hF] at hlt'
    exact absurd (hlt.trans hlt') (lt_irrefl _)

end ForcedCherryCutRule

section Pair

variable {width fuel i k : ℕ} {X : Finset Label} {m M : Memory} {Fs Gs : List Forest} {F G : Forest}
  {a c : Label}

/-- The node of a cherry. -/
structure Forest.Pair (F : Forest) (a c : Label) (v : Tree) : Prop where
  mem : v ∈ F.subtrees
  inner : v.isTerminal = false
  least : v.least = min a c
  labels : v.labels = {a, c}
  clusters : v.clusters = {{a}, {c}, {a, c}}
  collapse : F.collapseParent a = F.collapse v.ptr

/-- **The node of a cherry is collapsed.** -/
theorem Forest.exists_pair (hF : F.Valid) (h : {a, c} ∈ F.clusters) (hne : a ≠ c) :
    ∃ q u w, F.Pair a c (.node q u w) ∧ ∃ p e, u = .leaf p a e ∨ w = .leaf p a e := by
  obtain ⟨q, u, w, hq, pa, ma, pc, mc, hor⟩ := Forest.exists_cherry hF.distinct h hne
  refine ⟨q, u, w, ⟨hq, rfl, ?_, ?_, ?_, Forest.collapseParent_eq hF hq (hor.imp And.left And.right)⟩, pa, ma,
    hor.imp And.left And.right⟩
  · rcases hor with ⟨rfl, rfl⟩ | ⟨rfl, rfl⟩
    · rfl
    · exact min_comm _ _
  · rcases hor with ⟨rfl, rfl⟩ | ⟨rfl, rfl⟩
    · rfl
    · exact Finset.union_comm _ _
  · rcases hor with ⟨rfl, rfl⟩ | ⟨rfl, rfl⟩ <;>
      simp only [Tree.clusters, Tree.labels] <;> ext Y <;>
      simp only [Finset.mem_insert, Finset.mem_singleton, ← Finset.insert_eq, Finset.pair_comm c a] <;>
      tauto

/-- **One collapse, undone** in what is left of the forests. -/
theorem Memory.Remnants.undoCollapse {m' : Memory} {s s' : Store} {q : Ptr} {u w : Tree}
    {action : CollapseSubtreeAction}
    (hs : m.forests[i]? = some s) (hF : Fs[i]? = some F) (hheld : Held width fuel s F)
    (hv : Tree.node q u w ∈ F.subtrees) (hcol : F.Collapse width s q action s')
    (hm' : m'.forests = m.forests.set i s') (hG : Gs[i]? = some G)
    (h : Memory.Remnants width m' (Fs.set i (F.collapse q)) M Gs) :
    ∃ forests, RuleObject.undoChange fuel M.forests (.collapseSubtree i action) = some forests ∧
      m.Remnants width Fs ⟨forests, M.protectedEdges⟩ (Gs.set i (G.expand (.node q u w))) := by
  have hi : i < m.forests.length := (List.getElem?_eq_some_iff.1 hs).1
  have hi' : i < Fs.length := (List.getElem?_eq_some_iff.1 hF).1
  have hiG : i < Gs.length := (List.getElem?_eq_some_iff.1 hG).1
  have hiM : i < M.forests.length := h.length ▸ hiG
  have hrem := h.remnant (i := i) (by rw [hm', List.getElem?_set_self hi]) (List.getElem?_set_self hi')
    (List.getElem?_eq_getElem hiM) hG
  obtain ⟨s₂, hundo, hrem₂⟩ := hrem.exists_undoCollapse hheld.wellFormed hheld.indexed hv hcol
  refine ⟨M.forests.set i s₂, ?_, by rw [List.length_set, List.length_set, h.length],
    by rw [List.length_set, h.length_eq, List.length_set], fun {j t s₁ F' G'} ht hF' hs₁ hG' => ?_⟩
  · simp only [RuleObject.undoChange, List.getElem?_eq_getElem hiM, hundo, Option.bind_eq_bind, Option.bind_some]
  · by_cases hij : i = j
    · subst hij
      obtain rfl := Option.some.inj (hs.symm.trans ht)
      obtain rfl := Option.some.inj (hF.symm.trans hF')
      rw [List.getElem?_set_self hiM] at hs₁
      rw [List.getElem?_set_self hiG] at hG'
      obtain rfl := Option.some.inj hs₁
      obtain rfl := Option.some.inj hG'
      exact hrem₂
    · rw [List.getElem?_set_ne hij] at hs₁ hG'
      exact h.remnant (by rwa [hm', List.getElem?_set_ne hij]) (by rwa [List.getElem?_set_ne hij]) hs₁ hG'

end Pair

namespace EqualPairReductionRule

open Forest

variable {width fuel i k : ℕ} {X : Finset Label} {m M : Memory} {a c : Label}

/-- The parent of a terminal of a cherry is collapsed. -/
theorem collapseParent_collapse {Fs : List Forest} {F : Forest} (hm : m.Holds width fuel Fs)
    (hF : Fs[i]? = some F)
    {q p : Ptr} {u w : Tree} {e : Finset Label} (hq : Tree.node q u w ∈ F.subtrees)
    (hx : u = .leaf p a e ∨ w = .leaf p a e) (r : RuleObject) :
    ∃ s action s', m.forests[i]? = some s ∧ Held width fuel s F ∧ F.Collapse width s q action s' ∧
      Body.collapseParent a i (r, m) = some (false, { r with changes := .collapseSubtree i action :: r.changes },
        { m with forests := m.forests.set i s' }) ∧
      Memory.Holds width fuel { m with forests := m.forests.set i s' } (Fs.set i (F.collapse q)) := by
  obtain ⟨s, hs, hheld⟩ := hm.get hF
  obtain ⟨action, s', hcol⟩ := exists_collapse hheld.wellFormed hheld.indexed hq
  obtain ⟨o, hor⟩ : ∃ o, Tree.node q (.leaf p a e) o ∈ F.subtrees ∨ Tree.node q o (.leaf p a e) ∈ F.subtrees := by
    rcases hx with rfl | rfl
    · exact ⟨w, Or.inl hq⟩
    · exact ⟨u, Or.inr hq⟩
  have hpar : (s.nodes p).parent = some q := (hheld.wellFormed.children hor).1
  have hleaf : Tree.leaf p a e ∈ F.subtrees := by
    rcases hor with h | h
    · exact (mem_subtrees_children h).1
    · exact (mem_subtrees_children h).2
  have hterm : s.labelToTerminal a = some p :=
    (hheld.indexed.labelToTerminal p a).2 ⟨a, e, hleaf, Finset.mem_insert_self ..⟩
  have hheld' : Held width fuel s' (F.collapse q) :=
    ⟨hcol.wellFormed, hcol.indexed, (ptrs_collapse q F).length_le.trans hheld.length_le⟩
  refine ⟨s, action, s', hs, hheld, hcol, ?_, hm.set i hheld' m.protectedEdges⟩
  simp only [Body.collapseParent, withTerminal, hs, hterm, hpar, hcol.done, Option.bind_eq_bind, Option.bind_some]

/-- **The cherries are collapsed**, from the forest of number `i` on, and expanded again in what is left
of the forests. -/
theorem collapsePairs_undo {done fs : List Forest} (hcl : ∀ F ∈ fs, {a, c} ∈ F.clusters) (hne : a ≠ c)
    (hi : done.length = i) {r : RuleObject} (hm : m.Holds width fuel (done ++ fs)) {b : Bool}
    {z : RuleObject × Memory}
    (hrun : forEach (collapseParent a) (List.range' i fs.length) (r, m) = some (b, z)) :
    z.2.Holds width fuel (done ++ fs.map (Forest.collapseParent a)) ∧
      ∃ new, z.1.changes = new ++ r.changes ∧ ∀ M Ds Hs, Ds.length = i →
        Memory.Remnants width z.2 (done ++ fs.map (Forest.collapseParent a)) M (Ds ++ Hs) →
        ∃ forests Hs', RuleObject.undoChanges fuel new M.forests = some forests ∧
          m.Remnants width (done ++ fs) ⟨forests, M.protectedEdges⟩ (Ds ++ Hs') ∧
          ∀ F H, fs[0]? = some F → Hs[0]? = some H → ∃ v, F.Pair a c v ∧ Hs'[0]? = some (H.expand v) := by
  induction fs generalizing done i m r with
  | nil =>
      obtain ⟨-, rfl⟩ := Prod.mk.inj (Option.some.inj hrun)
      exact ⟨hm, [], rfl, fun M Ds Hs _ h => ⟨M.forests, Hs, rfl, h, nofun⟩⟩
  | cons F fs ih =>
      have hF : (done ++ F :: fs)[i]? = some F := by simp [← hi]
      have hv : F.Valid := by
        obtain ⟨s, -, hheld⟩ := hm.get hF
        exact hheld.wellFormed.valid
      obtain ⟨q, u, w, hpair, p, e, hx⟩ := exists_pair hv (hcl F (List.mem_cons_self ..)) hne
      obtain ⟨s, action, s', hs, hheld, hcol, hrun₁, hm₁⟩ :=
        collapseParent_collapse hm hF hpair.mem hx r
      have hset : (done ++ F :: fs).set i (F.collapse q) = (done ++ [F.collapseParent a]) ++ fs := by
        rw [← hi, List.set_append_right _ _ le_rfl, Nat.sub_self, List.set_cons_zero, List.append_cons, hpair.collapse]
        rfl
      rw [hset] at hm₁
      rw [List.length_cons, List.range'_succ, forEach, Prog.seq, hrun₁] at hrun
      obtain ⟨hm', new, hnew, hundo⟩ := ih (fun G hG => hcl G (List.mem_cons_of_mem _ hG)) (by simp [hi]) hm₁ hrun
      rw [← List.append_cons, ← List.map_cons] at hm' hundo
      refine ⟨hm', new ++ [.collapseSubtree i action], by rw [hnew, List.append_assoc]; rfl, fun M Ds Hs hDs h => ?_⟩
      -- the later forests first, then this one
      obtain ⟨H, Hs, rfl⟩ : ∃ H Hs', Hs = H :: Hs' := by
        refine List.exists_cons_of_ne_nil fun hnil => ?_
        have := h.length_eq
        rw [hnil, List.append_nil, hDs, List.length_append, List.length_map, List.length_cons] at this
        omega
      obtain ⟨forests, Hs', hundo', hrem, -⟩ :=
        hundo M (Ds ++ [H]) Hs (by simp [hDs]) (by rwa [← List.append_cons])
      rw [← hset, ← List.append_cons] at hrem
      have hH : (Ds ++ H :: Hs')[i]? = some H := by simp [← hDs]
      obtain ⟨forests', hundo'', hrem'⟩ := hrem.undoCollapse hs hF hheld hpair.mem hcol rfl hH
      have hset' : (Ds ++ H :: Hs').set i (H.expand (.node q u w)) = Ds ++ H.expand (.node q u w) :: Hs' := by
        rw [← hDs, List.set_append_right _ _ le_rfl, Nat.sub_self, List.set_cons_zero]
      rw [hset'] at hrem'
      refine ⟨forests', _, ?_, hrem', fun F' H' hF' hH' => ?_⟩
      · rw [RuleObject.undoChanges_append, hundo', Option.bind_some, RuleObject.undoChanges, hundo'']
        rfl
      · obtain rfl := Option.some.inj hF'
        obtain rfl := Option.some.inj hH'
        exact ⟨_, hpair, rfl⟩

/-- The pair leaves every forest smaller. -/
theorem length_collapseParent_lt {F : Forest} (hF : F.Valid) (hcl : {a, c} ∈ F.clusters) (hne : a ≠ c) :
    (F.collapseParent a).ptrs.length < F.ptrs.length := by
  obtain ⟨q, u, w, hpair, -⟩ := exists_pair hF hcl hne
  rw [hpair.collapse]
  exact length_collapse_lt hpair.mem

/-- Collapsing a cherry in every forest trims the forests. -/
theorem trimmed_collapseParent {Fs : List Forest} (hcl : ∀ F ∈ Fs, {a, c} ∈ F.clusters) (hne : a ≠ c)
    (hm : m.Holds width fuel Fs) :
    List.Forall₂ Forest.Trimmed Fs (Fs.map (Forest.collapseParent a)) := by
  rw [List.forall₂_map_right_iff]
  refine List.forall₂_same.2 fun F hF => Or.inr ?_
  obtain ⟨j, hj⟩ := List.mem_iff_getElem?.1 hF
  obtain ⟨s, -, hheld⟩ := hm.get hj
  exact length_collapseParent_lt hheld.wellFormed.valid (hcl F hF) hne

/-- **The pair, expanded again.**  What answers the forests with the pair collapsed becomes, by `unapply`,
an answer of the forests before. -/
theorem apply_answer {Fs : List Forest} (hcl : ∀ F ∈ Fs, {a, c} ∈ F.clusters) (hne : a ≠ c)
    (hm : m.Holds width fuel Fs) (hX : ∀ F ∈ Fs, F.labels = X) {r : RuleObject}
    (hr : r.changes = []) {b : Bool}
    {z : RuleObject × Memory} (hrun : EqualPairReductionRule.apply a (r, m) = some (b, z)) :
    z.2.Holds width fuel (Fs.map (Forest.collapseParent a)) ∧
      (∀ G ∈ Fs.map (Forest.collapseParent a), Forest.labels G = X.erase (max a c)) ∧
      ∀ M Hs k, z.2.Answer width (X.erase (max a c)) (Fs.map (Forest.collapseParent a)) M Hs k →
        ∃ forests Hs', RuleObject.undoChanges fuel z.1.changes M.forests = some forests ∧
          m.Answer width X Fs ⟨forests, M.protectedEdges⟩ Hs' k := by
  have hheld : ∀ F ∈ Fs, ∃ s, Held width fuel s F := fun F hF => by
    obtain ⟨j, hj⟩ := List.mem_iff_getElem?.1 hF
    obtain ⟨s, -, h⟩ := hm.get hj
    exact ⟨s, h⟩
  have hvalid : ∀ F ∈ Fs, F.Valid := fun F hF => (hheld F hF).elim fun s h => h.wellFormed.valid
  have hlabels : ∀ G ∈ Fs.map (Forest.collapseParent a), Forest.labels G = X.erase (max a c) := by
    intro G hG
    obtain ⟨F, hF, rfl⟩ := List.mem_map.1 hG
    rw [labels_collapseParent (hvalid F hF) (hcl F hF) hne, hX F hF]
  rw [EqualPairReductionRule.apply, forEachForest, hm.length, List.range_eq_range'] at hrun
  have hm₀ : m.Holds width fuel ([] ++ Fs) := hm
  obtain ⟨hm', new, hnew, hundo⟩ := collapsePairs_undo hcl hne rfl hm₀ hrun
  rw [hr, List.append_nil] at hnew
  rw [List.nil_append] at hm'
  refine ⟨hm', hlabels, fun M Hs k h => ?_⟩
  obtain ⟨forests, Hs', hundo', hrem, hzero⟩ := hundo M [] Hs rfl h.toRemnants
  obtain ⟨f, hf, hblocks⟩ := h.blocks
  rw [← hnew] at hundo'
  refine ⟨forests, Hs', hundo', hrem, f ∘ into (min a c) {a, c}, ?_, fun F H' hF hH' => ?_⟩
  · -- every forest is the collapsed one, expanded
    by_cases hnil : Fs = []
    · subst hnil
      exact ⟨fun C hC => absurd hC List.not_mem_nil, fun C hC => absurd hC List.not_mem_nil⟩
    obtain ⟨F₀, hF₀⟩ := List.exists_mem_of_ne_nil Fs hnil
    have hexp : ∀ F ∈ Fs, Expandable (X.erase (max a c)) (min a c) {a, c} {{a}, {c}, {a, c}} ∧
        X = X.erase (max a c) ∪ {a, c} ∧
        F.clusters = expandAt (min a c) {a, c} {{a}, {c}, {a, c}} (F.collapseParent a).clusters := by
      intro F hF
      obtain ⟨q, u, w, hpair, -⟩ := exists_pair (hvalid F hF) (hcl F hF) hne
      have := expandable_collapse (hvalid F hF) hpair.mem hpair.inner
      rwa [hpair.least, hpair.labels, hpair.clusters, ← hpair.collapse,
        hlabels _ (List.mem_map_of_mem hF), hX F hF] at this
    obtain ⟨hex, hunion, -⟩ := hexp F₀ hF₀
    have hclusters : Instance.clusters Fs = (Instance.clusters (Fs.map (Forest.collapseParent a))).map
        (expandAt (min a c) {a, c} {{a}, {c}, {a, c}}) := by
      rw [Instance.clusters, Instance.clusters, List.map_map, List.map_map]
      exact List.map_congr_left fun F hF => (hexp F hF).2.2
    rw [hclusters, hunion]
    exact hf.expand hex fun C hC Y hY => (hm'.hierarchy hlabels C hC).subset Y hY
  · have hlen : 0 < Hs.length := by
      rw [h.length_eq, List.length_map]
      exact (List.getElem?_eq_some_iff.1 hF).1
    have hH := List.getElem?_eq_getElem hlen
    obtain ⟨v, hpair, hv'⟩ := hzero F _ hF hH
    obtain rfl := Option.some.inj (hH'.symm.trans hv')
    have hmemF := List.mem_of_getElem? hF
    have hv : v.Valid := (hvalid F hmemF).of_mem_subtrees hpair.mem
    have hG : (Fs.map (Forest.collapseParent a))[0]? = some (F.collapse v.ptr) := by
      rw [List.getElem?_map, hF, Option.map_some, hpair.collapse]
    obtain ⟨hind, hhas, hk⟩ := hblocks _ _ hG hH
    obtain ⟨s, hs, -⟩ := hm'.get hG
    have hM : 0 < M.forests.length := h.length ▸ hlen
    have hrem := h.remnant hs hG (List.getElem?_eq_getElem hM) hH
    have hlen' : (Hs[0].expand v).length = Hs[0].length := List.length_map _
    obtain ⟨hfit, hmem, hback⟩ : v.Fits (F.collapse v.ptr).subtrees ∧ v.collapsed ∈ (F.collapse v.ptr).subtrees ∧
        (F.collapse v.ptr).expand v = F := by
      have hmem := hpair.mem
      have hinner := hpair.inner
      cases v with
      | leaf => cases hinner
      | node p l r => exact ⟨fits_collapse (hvalid F hmemF) hmem, collapsed_mem_collapse (hvalid F hmemF) hmem,
          expand_collapse (hvalid F hmemF) hmem⟩
    have hind' := hind.expand hv hfit hmem (hrem.fits hfit) (by rw [hrem.labels])
    have hhas' := hhas.expand hv (hrem.fits hfit) (hrem.collapsed_mem hmem)
    rw [hback] at hind'
    rw [hpair.least, hpair.labels] at hhas'
    exact ⟨hind', hhas', hlen'.trans hk⟩

end EqualPairReductionRule

namespace RuleObject

/-- `IsReduction`: of the rules of the search, only the one that collapses pairs must be rolled back for
a solution of the original instance. -/
def isReduction (r : RuleObject) : Bool :=
  match r.rule with
  | .equalPairReduction .. => true
  | _ => false

/-- What `unapplyReductions` does with a rule. -/
def unapplyReduction (fuel : ℕ) (r : RuleObject) (m : Memory) : Option Memory :=
  if r.isReduction then (r.unapply fuel m).map Prod.snd else some m

variable {width fuel t : ℕ} {X : Finset Label} {Fs : List Forest} {m m' : Memory} {r r' : RuleObject}

/-- **The rule brings answers back**: an answer for the forests that its `apply` left becomes one for the
forests before it. -/
def BringsBack (width fuel : ℕ) (X : Finset Label) (Fs : List Forest) (r' : RuleObject)
    (m m' : Memory) : Prop :=
  ∃ X' Gs, m'.Holds width fuel Gs ∧ (∀ G ∈ Gs, Forest.labels G = X') ∧ List.Forall₂ Forest.Trimmed Fs Gs ∧
    ∀ M Hs k, m'.Answer width X' Gs M Hs k →
      ∃ M' Hs', r'.unapplyReduction fuel M = some M' ∧ m.Answer width X Fs M' Hs' k

/-- A rule that cuts. -/
theorem bringsBack_of_cuts (hm : m.Holds width fuel Fs) (hX : ∀ F ∈ Fs, F.labels = X)
    (hred : r'.isReduction = false)
    (h : Cuts width fuel X (r, m) (r', m')) : BringsBack width fuel X Fs r' m m' := by
  obtain ⟨Gs, hm', hX', htrim, hback⟩ := h Fs hm hX
  refine ⟨X, Gs, hm', hX', htrim, fun M Hs k h => ⟨M, Hs, ?_, hback M Hs k h⟩⟩
  rw [unapplyReduction, hred]
  rfl

/-- **The body of a rule that fits brings answers back.** -/
theorem body_bringsBack {branch : ℕ}
    (hbranch : r.branch = if r.isBranchingRule then branch + 1 else branch)
    (hmax : r.isBranchingRule = true → branch < r.maxBranch) (hm : m.Holds width fuel Fs)
    (hX : ∀ F ∈ Fs, F.labels = X)
    (hfit : r.rule.Fits branch Fs X) (hchanges : r.changes = []) (hrule : r'.rule = r.rule)
    (happlied : r'.isApplied = true) {b : Bool} (hrun : (r.body fuel).2 (r, m) = some (b, r', m')) :
    BringsBack width fuel X Fs r' m m' := by
  have cuts : (∀ a c, r.rule ≠ .equalPairReduction a c) → Cuts width fuel X (r, m) (r', m') →
      BringsBack width fuel X Fs r' m m' := fun hno => by
    refine bringsBack_of_cuts hm hX ?_
    rw [isReduction, hrule]
    cases hr : r.rule with
    | equalPairReduction a c => exact absurd hr (hno a c)
    | _ => rfl
  have labels : ∀ {L : List Label}, (∀ x ∈ L, x ∈ X) →
      Only (Cuts width fuel X) (forEachForest fun i => forEach (cutLabel fuel · i) L) := fun hL =>
    Only.forEachForest fun i => Only.forEach fun x hx => cutLabel_cuts (hL x hx)
  have label : ∀ {x : Label}, x ∈ X → Only (Cuts width fuel X) (forEachForest (cutLabel fuel x)) := fun hx =>
    Only.forEachForest fun i => cutLabel_cuts hx
  have protect : ∀ {x y : Label}, x ∈ X →
      Only (Cuts width fuel X) (forEachForest (cutAndProtect fuel x y)) := fun {x y} hx =>
    Only.forEachForest fun i => cutTerminal_cuts hx (protectNode_cuts y)
  unfold body at hrun
  cases hr : r.rule with
  | cutBranch =>
      rw [hr] at hrun
      exact cuts (by simp [hr]) (only_skip (R := Cuts width fuel X) _ _ _ hrun)
  | checkSingleVertexTrees =>
      rw [hr] at hrun
      exact cuts (by simp [hr]) (only_skip (R := Cuts width fuel X) _ _ _ hrun)
  | singleVertexTreePropagation ls =>
      rw [hr] at hfit hrun
      exact cuts (by simp [hr]) (labels hfit _ _ _ hrun)
  | equalPairReduction a c =>
      rw [hr] at hfit hrun
      obtain ⟨hm', hlabels, hback⟩ := EqualPairReductionRule.apply_answer hfit.2 hfit.1 hm hX hchanges hrun
      refine ⟨_, _, hm', hlabels, EqualPairReductionRule.trimmed_collapseParent hfit.2 hfit.1 hm, fun M Hs k h => ?_⟩
      obtain ⟨forests, Hs', hundo, hans⟩ := hback M Hs k h
      refine ⟨_, Hs', ?_, hans⟩
      rw [unapplyReduction, isReduction, hrule, hr, if_pos rfl, unapply, if_neg (by rw [hrule, hr]; exact nofun),
        happlied, show undoChanges fuel r'.changes M.forests = _ from hundo]
      simp [isBranchingRule, maxBranch, hrule, hr]
  | bRule b1 b2 =>
      rw [hr] at hfit hrun
      refine cuts (by simp [hr]) (labels ?_ _ _ _ hrun)
      split_ifs with h₀
      · simpa using hfit.1
      · simpa using ⟨hfit.1, hfit.2 h₀⟩
  | reverseB x =>
      rw [hr] at hfit hrun
      exact cuts (by simp [hr]) (label hfit _ _ _ hrun)
  | twoB x y =>
      rw [hr] at hfit hrun
      have hxy : ∀ z ∈ [x, y], z ∈ X := by simpa using (show x ∈ X ∧ y ∈ X from hfit)
      exact cuts (by simp [hr]) (labels hxy _ _ _ hrun)
  | acBranching a c =>
      rw [hr] at hfit hrun
      refine cuts (by simp [hr]) ?_
      have hmaxB : r.maxBranch = 2 := by rw [maxBranch, hr]
      have hbr : r.isBranchingRule = true := by rw [isBranchingRule, hmaxB]; rfl
      have hlt := hmax hbr
      rw [if_pos hbr] at hbranch
      have hcases : r.branch = 1 ∨ r.branch = 2 := by omega
      rcases hcases with h₁ | h₂
      · simp only [h₁, ACBranchingRule.apply] at hrun
        exact label hfit.1 _ _ _ hrun
      · simp only [h₂, ACBranchingRule.apply] at hrun
        exact protect hfit.2 _ _ _ hrun
  | abcBranching a c bs =>
      rw [hr] at hfit hrun
      refine cuts (by simp [hr]) ?_
      have hmaxB : r.maxBranch = 3 := by rw [maxBranch, hr]
      have hbr : r.isBranchingRule = true := by rw [isBranchingRule, hmaxB]; rfl
      have hlt := hmax hbr
      rw [if_pos hbr] at hbranch
      have hcases : r.branch = 1 ∨ r.branch = 2 ∨ r.branch = 3 := by omega
      rcases hcases with h₁ | h₂ | h₃
      · simp only [h₁, ABCBranchingRule.apply] at hrun
        obtain ⟨-, hcol⟩ := hfit.2.2 (by omega)
        intro Fs' hm' hX'
        obtain rfl := hm'.read.symm.trans hm.read
        have hm₀ : m.Holds width fuel ([] ++ Fs') := hm
        exact ABCBranchingRule.joinPair_answer hcol rfl hm₀ hX hrun
      · simp only [h₂, ABCBranchingRule.apply] at hrun
        exact label hfit.2.1 _ _ _ hrun
      · simp only [h₃, ABCBranchingRule.apply] at hrun
        exact protect hfit.1 _ _ _ hrun
  | forcedCherryCut a c =>
      rw [hr] at hfit hrun
      refine cuts (by simp [hr]) fun Fs' hm' hX' => ?_
      obtain rfl := hm'.read.symm.trans hm.read
      have hfit₀ : (Rule.forcedCherryCut a c).Fits 0 Fs' X := hfit
      obtain ⟨Gs, hGs, hlabels, htrim, -, hback⟩ := ForcedCherryCutRule.apply_answer hfit₀ hm hX hrun
      exact ⟨Gs, hGs, hlabels, htrim, hback⟩
  | greedyCherryCut a c =>
      rw [hr] at hfit hrun
      exact cuts (by simp [hr]) (label hfit _ _ _ hrun)
  | debugAssertFalse =>
      rw [hr] at hfit
      exact hfit.elim

/-- A rule that can be unapplied is applied. -/
theorem Applied.isApplied {code : RuleReturnCode} (hrule : r.rule ≠ .debugAssertFalse)
    (h : Applied width fuel t X r m code r' m') : r'.isApplied = true := by
  have hundone := h.undone
  unfold unapply at hundone
  rw [if_neg (by rwa [h.rule])] at hundone
  by_contra hno
  rw [Bool.not_eq_true] at hno
  rw [hno] at hundone
  cases hundone

/-- **The clone of an applied rule** is the rule as it was before. -/
theorem Applied.clone {code : RuleReturnCode} (hready : Ready width fuel t X r m)
    (hbranch : r.isBranchingRule = false → r.branch = 0)
    (h : Applied width fuel t X r m code r' m') : r'.clone = r := by
  have hbr : r'.isBranchingRule = r.isBranchingRule := by
    rw [isBranchingRule, isBranchingRule, maxBranch, maxBranch, h.rule]
  refine Eq.trans ?_ hready.fresh.symm
  rw [RuleObject.clone, h.isApplied hready.rule_ne, hbr, h.branch, h.rule]
  cases hb : r.isBranchingRule with
  | true => rfl
  | false => rw [hbranch hb]; rfl

/-- **What was applied** is the body of the rule, with the code of the body unless it was left early. -/
theorem Applied.exists_run {code : RuleReturnCode} (hready : Ready width fuel t X r m)
    (h : Applied width fuel t X r m code r' m') :
    ∃ b, (r.begun.body fuel).2 (r.begun, m) = some (b, r', m') ∧
      code = if b then .cutBranch else (r.begun.body fuel).1 := by
  have happ := h.applied
  rw [apply_eq hready.fresh hready.rule_ne hready.branch, Option.map_eq_some_iff] at happ
  obtain ⟨⟨b, r₁, m₁⟩, hrun, hfin⟩ := happ
  obtain ⟨hcode, hfin⟩ := Prod.mk.inj hfin
  obtain ⟨rfl, rfl⟩ := Prod.mk.inj hfin
  exact ⟨b, hrun, hcode.symm⟩

/-- **A rule that was applied brings answers back.** -/
theorem Applied.bringsBack {code : RuleReturnCode} (hready : Ready width fuel t X r m)
    (h : Applied width fuel t X r m code r' m') : ∃ Fs : List Forest, m.Holds width fuel Fs ∧
      (∀ F ∈ Fs, F.labels = X) ∧ BringsBack width fuel X Fs r' m m' := by
  obtain ⟨Fs, hm, -, hX, hfit⟩ := hready.fits
  have hrule := hready.rule_ne
  refine ⟨Fs, hm, hX, ?_⟩
  obtain ⟨b, hrun, -⟩ := h.exists_run hready
  refine body_bringsBack (r := r.begun) rfl hready.branch hm hX hfit ?_ h.rule (h.isApplied hrule) hrun
  have hfresh := hready.fresh
  rw [Fresh] at hfresh
  rw [begun, hfresh]

end RuleObject

end Maf
