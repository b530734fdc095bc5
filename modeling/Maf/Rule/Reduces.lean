/-
# A rule with work to do takes nodes away

Every rule of `src/Solver/Rule/*.cpp` that is selected, and after which the search goes on, leaves forests
with fewer nodes than it was applied to (`Applied.nodes_lt`): a terminal that hangs below a parent is cut
off, or a cherry is collapsed.  Only the first branch of `ABCBranchingRule` may find nothing to cut; it
suggests the rule that collapses its pair.
-/

import Maf.Rule.Answers

namespace Maf

open EarlyExit Prog
open Graph Body

/-- The nodes of the forests. -/
def Instance.nodes (Fs : List Forest) : ℕ := (Fs.map fun F => F.ptrs.length).sum

section Nodes

variable {F G : Forest} {Fs Gs : List Forest} {i : ℕ}

/-- Trimming adds no nodes. -/
theorem Forest.Trimmed.length_le (h : F.Trimmed G) : G.ptrs.length ≤ F.ptrs.length :=
  h.elim (fun he => he ▸ le_rfl) le_of_lt

/-- Each forest is trimmed by itself. -/
theorem trimmed_get (h : List.Forall₂ Forest.Trimmed Fs Gs) (hF : Fs[i]? = some F) :
    ∃ G, Gs[i]? = some G ∧ F.Trimmed G := by
  obtain ⟨hi, rfl⟩ := List.getElem?_eq_some_iff.1 hF
  have hi' : i < Gs.length := h.length_eq ▸ hi
  exact ⟨Gs[i], List.getElem?_eq_getElem hi', (List.forall₂_iff_get.1 h).2 i hi hi'⟩

/-- Trimmed forests have no more nodes. -/
theorem Instance.nodes_le (h : List.Forall₂ Forest.Trimmed Fs Gs) :
    Instance.nodes Gs ≤ Instance.nodes Fs := by
  induction h with
  | nil => exact le_rfl
  | cons hFG _ ih =>
      simp only [Instance.nodes, List.map_cons, List.sum_cons] at ih ⊢
      exact Nat.add_le_add hFG.length_le ih

/-- **One smaller forest is enough.** -/
theorem Instance.nodes_lt (h : List.Forall₂ Forest.Trimmed Fs Gs) (hF : Fs[i]? = some F)
    (hG : Gs[i]? = some G)
    (hlt : G.ptrs.length < F.ptrs.length) : Instance.nodes Gs < Instance.nodes Fs := by
  induction h generalizing i with
  | nil => cases hF
  | @cons F' G' Fs Gs hFG hrest ih =>
      simp only [Instance.nodes, List.map_cons, List.sum_cons] at ih ⊢
      cases i with
      | zero =>
          obtain rfl := Option.some.inj hF
          obtain rfl := Option.some.inj hG
          exact Nat.add_lt_add_of_lt_of_le hlt (Instance.nodes_le hrest)
      | succ i => exact Nat.add_lt_add_of_le_of_lt hFG.length_le (ih hF hG)

/-- Trimming that changes something takes nodes away. -/
theorem Instance.nodes_lt_of_ne (h : List.Forall₂ Forest.Trimmed Fs Gs) (hne : Gs ≠ Fs) :
    Instance.nodes Gs < Instance.nodes Fs := by
  induction h with
  | nil => exact absurd rfl hne
  | @cons F G Fs Gs hFG hrest ih =>
      simp only [Instance.nodes, List.map_cons, List.sum_cons] at ih ⊢
      rcases hFG with rfl | hlt
      · exact Nat.add_lt_add_left (ih fun he => hne (by rw [he])) _
      · exact Nat.add_lt_add_of_lt_of_le hlt (Instance.nodes_le hrest)

end Nodes

namespace Body

section Bites

variable {width fuel i : ℕ} {X : Finset Label} {x : Label} {f g : Body}

/-- **The part makes forest `i` smaller** while the terminal of `x` hangs in it, unless it is left early. -/
def Bites (width fuel : ℕ) (X : Finset Label) (x : Label) (i : ℕ) (f : Body) : Prop :=
  ∀ y z, f y = some (false, z) → ∀ Fs F, y.2.Holds width fuel Fs → (∀ F ∈ Fs, F.labels = X) → Fs[i]? = some F →
    (∀ p m, Tree.leaf p x m ∉ F) →
      ∃ Gs G, z.2.Holds width fuel Gs ∧ Gs[i]? = some G ∧ G.ptrs.length < F.ptrs.length

/-- What comes after a bite does not undo it. -/
theorem Bites.seq_left (hf : Only (Cuts width fuel X) f) (hg : Only (Cuts width fuel X) g)
    (h : Bites width fuel X x i f) :
    Bites width fuel X x i (f.seq g) := by
  intro y z hrun Fs F hm hX hF hhang
  rw [Prog.seq] at hrun
  split at hrun
  · cases hrun
  · cases hrun
  · next y' hrun' =>
      obtain ⟨Gs, G, hm', hG, hlt⟩ := h _ _ hrun' Fs F hm hX hF hhang
      obtain ⟨Gs', hm'', hX', -, -⟩ := hf _ _ _ hrun' Fs hm hX
      obtain rfl := hm''.read.symm.trans hm'.read
      obtain ⟨Hs, hmz, -, htrim, -⟩ := hg _ _ _ hrun Gs' hm' hX'
      obtain ⟨H, hH, hHG⟩ := trimmed_get htrim hG
      exact ⟨Hs, H, hmz, hH, hHG.length_le.trans_lt hlt⟩

/-- What comes before a bite leaves the terminal hanging, or has bitten itself. -/
theorem Bites.seq_right (hf : Only (Cuts width fuel X) f) (hg : Only (Cuts width fuel X) g)
    (h : Bites width fuel X x i g) :
    Bites width fuel X x i (f.seq g) := by
  intro y z hrun Fs F hm hX hF hhang
  rw [Prog.seq] at hrun
  split at hrun
  · cases hrun
  · cases hrun
  · next y' hrun' =>
      obtain ⟨Gs, hm', hX', htrim, -⟩ := hf _ _ _ hrun' Fs hm hX
      obtain ⟨G, hG, rfl | hlt⟩ := trimmed_get htrim hF
      · exact h _ _ hrun Gs G hm' hX' hG hhang
      · obtain ⟨Hs, hmz, -, htrim', -⟩ := hg _ _ _ hrun Gs hm' hX'
        obtain ⟨H, hH, hHG⟩ := trimmed_get htrim' hG
        exact ⟨Hs, H, hmz, hH, hHG.length_le.trans_lt hlt⟩

/-- **One round of a loop that bites is enough.** -/
theorem Bites.forEach {α : Type*} {f : α → Body} {l : List α} {k : α} (hk : k ∈ l)
    (hf : ∀ k ∈ l, Only (Cuts width fuel X) (f k))
    (h : Bites width fuel X x i (f k)) : Bites width fuel X x i (Prog.forEach f l) := by
  induction l with
  | nil => cases hk
  | cons k' l ih =>
      have hhead := hf k' (List.mem_cons_self ..)
      have hrest : ∀ k ∈ l, Only (Cuts width fuel X) (f k) :=
        fun k hk => hf k (List.mem_cons_of_mem _ hk)
      rcases List.mem_cons.1 hk with rfl | hk
      · exact h.seq_left hhead (Only.forEach hrest)
      · exact (ih hk hrest).seq_right hhead (Only.forEach hrest)

/-- A loop over the forests takes nodes away when one round does. -/
theorem Bites.forEachForest {f : ℕ → Body} (hf : ∀ i, Only (Cuts width fuel X) (f i))
    (h : Bites width fuel X x i (f i)) :
    Bites width fuel X x i (forEachForest f) := by
  intro y z hrun Fs F hm hX hF hhang
  have hi : i ∈ List.range y.2.forests.length :=
    List.mem_range.2 (hm.length ▸ (List.getElem?_eq_some_iff.1 hF).1)
  exact Bites.forEach hi (fun k _ => hf k) h y z hrun Fs F hm hX hF hhang

/-- **The terminal that hangs is cut off.** -/
theorem cutTerminal_bites (hx : x ∈ X) (hg : Only (Cuts width fuel X) g) :
    Bites width fuel X x i (withTerminal x i fun node => ifChild i node ((cutNode fuel i node).seq g)) := by
  rintro ⟨r, m⟩ z hrun Fs F hm hX hF hhang
  obtain ⟨p, merged, hleaf, heq⟩ := withTerminal_eq hm hF (hX F (List.mem_of_getElem? hF) ▸ hx)
  rw [heq, show p = (Tree.leaf p x merged).ptr from rfl, ifChild_eq hm hF hleaf, if_neg (hhang p merged)] at hrun
  rw [Prog.seq] at hrun
  split at hrun
  · cases hrun
  · cases hrun
  · next y' hrun' =>
      obtain ⟨s, -, hheld⟩ := hm.get hF
      obtain ⟨G, hm', hlab, -, hG, -⟩ := cutNode_answer hm hX hF hleaf (hhang p merged) hrun'
      obtain rfl := hG rfl
      have hi : i < Fs.length := (List.getElem?_eq_some_iff.1 hF).1
      obtain ⟨Hs, hmz, -, htrim, -⟩ := hg _ _ _ hrun _ hm' (labels_set hX hF hlab)
      obtain ⟨H, hH, hHG⟩ := trimmed_get htrim (List.getElem?_set_self hi)
      exact ⟨Hs, H, hmz, hH,
        hHG.length_le.trans_lt (Forest.length_cut_lt hheld.wellFormed.valid hleaf (hhang p merged))⟩

/-- Cutting a label that is not alone takes nodes away. -/
theorem cutLabel_bites (hx : x ∈ X) : Bites width fuel X x i (cutLabel fuel x i) := by
  have hcut : Bites width fuel X x i (withTerminal x i fun node => ifChild i node ((cutNode fuel i node).seq skip)) :=
    cutTerminal_bites hx only_skip
  simp only [seq_skip] at hcut
  exact hcut

end Bites

end Body

namespace RuleObject

variable {width fuel t : ℕ} {X : Finset Label} {Fs : List Forest} {m m' : Memory} {r r' : RuleObject}

/-- **The body of a rule with work to do** leaves fewer nodes, unless it is left early. -/
theorem body_nodes_lt {branch : ℕ}
    (hbranch : r.branch = if r.isBranchingRule then branch + 1 else branch)
    (hmax : r.isBranchingRule = true → branch < r.maxBranch) (hm : m.Holds width fuel Fs)
    (hne : Fs ≠ [])
    (hX : ∀ F ∈ Fs, F.labels = X) (hfit : r.rule.Fits branch Fs X) (hwork : r.rule.Warranted Fs)
    (hrun : (r.body fuel).2 (r, m) = some (false, r', m')) (hcode : (r.body fuel).1 = .continue)
    {Gs : List Forest} (hm' : m'.Holds width fuel Gs) (htrim : List.Forall₂ Forest.Trimmed Fs Gs) :
    Instance.nodes Gs < Instance.nodes Fs := by
  have bites : ∀ {x : Label} {f : Body}, Hangs Fs x → (∀ i, Bites width fuel X x i f) →
      f (r, m) = some (false, r', m') → Instance.nodes Gs < Instance.nodes Fs := by
    rintro x f ⟨F, hF, -, hhang⟩ hbites hf
    obtain ⟨i, hi⟩ := List.mem_iff_getElem?.1 hF
    obtain ⟨Gs', G, hm'', hG, hlt⟩ := hbites i _ _ hf Fs F hm hX hi hhang
    obtain rfl := hm''.read.symm.trans hm'.read
    exact Instance.nodes_lt htrim hi hG hlt
  have labels : ∀ {x : Label} {L : List Label}, (∀ x ∈ L, x ∈ X) → x ∈ L →
      ∀ i, Bites width fuel X x i (forEachForest fun i => forEach (cutLabel fuel · i) L) := fun hL hx i =>
    Bites.forEachForest (fun i => Only.forEach fun x hx => cutLabel_cuts (hL x hx))
      (Bites.forEach hx (fun x hx => cutLabel_cuts (hL x hx)) (cutLabel_bites (hL _ hx)))
  have label : ∀ {x : Label}, x ∈ X → ∀ i, Bites width fuel X x i (forEachForest (cutLabel fuel x)) := fun hx i =>
    Bites.forEachForest (fun i => cutLabel_cuts hx) (cutLabel_bites hx)
  have protect : ∀ {x y : Label}, x ∈ X → ∀ i, Bites width fuel X x i (forEachForest (cutAndProtect fuel x y)) :=
    fun {x y} hx i => Bites.forEachForest (fun i => cutTerminal_cuts hx (protectNode_cuts y))
      (cutTerminal_bites hx (protectNode_cuts y))
  unfold body at hrun hcode
  cases hr : r.rule with
  | cutBranch =>
      rw [hr] at hcode
      cases hcode
  | checkSingleVertexTrees =>
      rw [hr] at hcode
      cases hcode
  | singleVertexTreePropagation ls =>
      rw [hr] at hfit hrun hwork
      obtain ⟨x, hx, hhang⟩ := hwork
      exact bites hhang (labels hfit hx) hrun
  | equalPairReduction a c =>
      rw [hr] at hfit hrun
      have hspec : EarlyExit.Triple (Keeps fuel) (fun _ => False) (fun y => y.2.Holds width fuel Fs)
          (EqualPairReductionRule.apply a) (fun y => y.2.Holds width fuel (Fs.map (Forest.collapseParent a))) :=
        EqualPairReductionRule.collapsePair_spec hfit.2 hfit.1
      obtain ⟨b, y, hrun', -, -, hQ⟩ := hspec (r, m) hm
      obtain ⟨rfl, rfl⟩ := Prod.mk.inj (Option.some.inj (hrun.symm.trans hrun'))
      obtain rfl := hm'.read.symm.trans (hQ rfl).read
      obtain ⟨F, fs, rfl⟩ := List.exists_cons_of_ne_nil hne
      obtain ⟨s, -, hheld⟩ := hm.get (i := 0) (F := F) rfl
      have hF := List.mem_cons_self (a := F) (l := fs)
      exact Instance.nodes_lt (i := 0) htrim rfl rfl
        (EqualPairReductionRule.length_collapseParent_lt hheld.wellFormed.valid (hfit.2 F hF) hfit.1)
  | bRule b1 b2 =>
      rw [hr] at hfit hrun hwork
      refine bites hwork (labels ?_ ?_) hrun
      · split_ifs with h₀
        · simpa using hfit.1
        · simpa using ⟨hfit.1, hfit.2 h₀⟩
      · split_ifs <;> exact List.mem_cons_self ..
  | reverseB x =>
      rw [hr] at hfit hrun hwork
      exact bites hwork (label hfit) hrun
  | twoB x y =>
      rw [hr] at hfit hrun hwork
      have hxy : ∀ z ∈ [x, y], z ∈ X := by simpa using (show x ∈ X ∧ y ∈ X from hfit)
      exact bites hwork (labels hxy (List.mem_cons_self ..)) hrun
  | acBranching a c =>
      rw [hr] at hfit hrun hwork
      have hmaxB : r.maxBranch = 2 := by rw [maxBranch, hr]
      have hbr : r.isBranchingRule = true := by rw [isBranchingRule, hmaxB]; rfl
      have hlt := hmax hbr
      rw [if_pos hbr] at hbranch
      have hcases : r.branch = 1 ∨ r.branch = 2 := by omega
      rcases hcases with h₁ | h₂
      · simp only [h₁, ACBranchingRule.apply] at hrun
        exact bites hwork.1 (label hfit.1) hrun
      · simp only [h₂, ACBranchingRule.apply] at hrun
        exact bites hwork.2 (protect hfit.2) hrun
  | abcBranching a c bs =>
      rw [hr] at hfit hrun hwork hcode
      have hmaxB : r.maxBranch = 3 := by rw [maxBranch, hr]
      have hbr : r.isBranchingRule = true := by rw [isBranchingRule, hmaxB]; rfl
      have hlt := hmax hbr
      rw [if_pos hbr] at hbranch
      have hcases : r.branch = 1 ∨ r.branch = 2 ∨ r.branch = 3 := by omega
      rcases hcases with h₁ | h₂ | h₃
      · simp only [h₁, if_true] at hcode
        cases hcode
      · simp only [h₂, ABCBranchingRule.apply] at hrun
        exact bites hwork.2 (label hfit.2.1) hrun
      · simp only [h₃, ABCBranchingRule.apply] at hrun
        exact bites hwork.1 (protect hfit.1) hrun
  | forcedCherryCut a c =>
      rw [hr] at hfit hrun
      have hfit₀ : (Rule.forcedCherryCut a c).Fits 0 Fs X := hfit
      obtain ⟨Gs', hGs, -, -, hsmaller, -⟩ := ForcedCherryCutRule.apply_answer hfit₀ hm hX hrun
      obtain rfl := hGs.read.symm.trans hm'.read
      exact Instance.nodes_lt_of_ne htrim (hsmaller rfl)
  | greedyCherryCut a c =>
      rw [hr] at hfit hrun hwork
      exact bites hwork (label hfit) hrun
  | debugAssertFalse =>
      rw [hr] at hfit
      exact hfit.elim

end RuleObject

end Maf
