/-
# The reduction rules at work

`apply` and `unapply` of `src/Solver/Rule/SubtreeReductionRule.cpp` and of
`src/Solver/Rule/ChainReductionRule.cpp`.  A rule keeps the actions of its `apply` on a stack;
`unapply` undoes them from the top of the stack on.

A step is one action on one forest (`Reduction.Step`): it makes the forest smaller, and undoing it
right away gives the memory back.  What the two rules do is a run of such steps (`Reduction.Run`):
`SubtreeReductionRule` collapses subtrees that do not overlap (`collapseSubtrees_spec`),
`ChainReductionRule` shortens chains that share no terminal, which keeps `k*`
(`shortenChains_run`).
-/

import Maf.Action.ChainClusters
import Maf.ReducedOptimum
import Maf.Rule.ChainReductionRule
import Maf.Rule.ReadBack
import Maf.Rule.SubtreeReductionRule
import Maf.UndoStack

namespace Maf

open Graph UndoStack

/-- `SubtreeReductionRule`: `forestToSubtrees` in the order of its iteration, and the stack. -/
structure SubtreeReductionRule where
  forestToSubtrees : List (ℕ × List Ptr)
  isApplied : Bool := false
  changes : List (ℕ × CollapseSubtreeAction) := []

namespace SubtreeReductionRule

/-- The loops of `apply`, over the subtrees of all forests. -/
def collapseSubtrees : List (ℕ × Ptr) → List (ℕ × CollapseSubtreeAction) → List Store →
    Option (List (ℕ × CollapseSubtreeAction) × List Store)
  | [], changes, forests => some (changes, forests)
  | (i, subtree) :: rest, changes, forests => do
      let f ← forests[i]?
      let (action, f) ← CollapseSubtreeAction.doAction subtree f
      collapseSubtrees rest ((i, action) :: changes) (forests.set i f)

/-- `apply`; `none` is an exception. -/
def apply (rule : SubtreeReductionRule) (forests : List Store) : Option (SubtreeReductionRule × List Store) :=
  if rule.isApplied then none
  else do
    let subtrees := rule.forestToSubtrees.flatMap fun p => p.2.map fun subtree => (p.1, subtree)
    let (changes, forests) ← collapseSubtrees subtrees rule.changes forests
    some ({ rule with isApplied := true, changes := changes }, forests)

/-- `unapply`; `none` is an exception. -/
def unapply (rule : SubtreeReductionRule) (forests : List Store) : Option (SubtreeReductionRule × List Store) :=
  if rule.isApplied then do
    let forests ← popAll (undoAt CollapseSubtreeAction.undoAction) rule.changes forests
    some ({ rule with isApplied := false, changes := [] }, forests)
  else none

end SubtreeReductionRule

namespace ChainReductionRule

/-- `unapply`; `none` is an exception. -/
def unapply (fuel : ℕ) (rule : ChainReductionRule) (forests : List Store) : Option (ChainReductionRule × List Store) :=
  if rule.isApplied then do
    let forests ← popAll (undoAt (ShortenChainAction.undoAction fuel)) rule.changes forests
    some ({ rule with isApplied := false, changes := [] }, forests)
  else none

end ChainReductionRule

/-- **A forest without some labels**: their terminals are gone, and the clusters lose them. -/
structure Forest.Without (ls : List Label) (F F' : Forest) : Prop where
  removed : ChainReductionRule.Removed ls F F'
  labels : F'.labels = F.labels \ ls.toFinset
  clusters : F'.clusters = trace F.clusters (F.labels \ ls.toFinset)

/-- An action of a reduction rule. -/
inductive ReductionAction where
  | collapseSubtree (action : CollapseSubtreeAction)
  | shortenChain (action : ShortenChainAction)

/-- `undoAction`. -/
def ReductionAction.undo (fuel : ℕ) : ReductionAction → Store → Option Store
  | .collapseSubtree action => CollapseSubtreeAction.undoAction action
  | .shortenChain action => ShortenChainAction.undoAction fuel action

namespace Reduction

variable {width fuel : ℕ} {s s' : Store} {F F' : Forest} {act : ReductionAction}

/-- **One action on one forest**: a subtree is collapsed, or the chain `ls` that hangs above `L` in
`U` is taken out. -/
inductive Step (width fuel : ℕ) (s : Store) (F : Forest) : ReductionAction → Store → Forest → Prop
  | collapseSubtree {p : Ptr} {l r : Tree} {a : CollapseSubtreeAction} {s' : Store} (hv : Tree.node p l r ∈ F.subtrees)
      (h : F.Collapse width s p a s') : Step width fuel s F (.collapseSubtree a) s' (F.collapse p)
  | shortenChain {a : ShortenChainAction} {L U : Tree} {ls : List Label} {n : Ptr} {s' : Store} (hU : U ∈ F.subtrees)
      (hA : a.Shelved width s.nodes s'.nodes L U ls) (hoff : ∀ x ∉ F.ptrs, s'.nodes x = s.nodes x)
      (hn : s'.labelToTerminal a.lower = some n) (hpar : (s'.nodes n).parent = some L.ptr)
      (hundo : ShortenChainAction.undoAction fuel a s' = some s) :
      Step width fuel s F (.shortenChain a) s' (F.replaceAt U.ptr L)

/-- **A step can be undone.** -/
theorem Step.undo (h : Step width fuel s F act s' F') : act.undo fuel s' = some s := by
  cases h with
  | collapseSubtree _ h => exact h.undone
  | shortenChain _ _ _ _ _ hundo => exact hundo

/-- **A step makes the forest smaller.** -/
theorem Step.length_lt (h : Step width fuel s F act s' F') (hF : F.Valid) : F'.ptrs.length < F.ptrs.length := by
  cases h with
  | @collapseSubtree p l r a s' hv h =>
      obtain ⟨D, hD⟩ := Forest.exists_ptrs_perm hv
      have hlen := (Forest.ptrs_swap (S := (Tree.node p l r).collapsed) hF hv hD).length_eq
      have hl := List.length_pos_of_mem (Tree.ptr_mem_ptrs (Tree.mem_subtrees_self l))
      rw [show F.collapse p = _ from Forest.collapse_eq_replaceAt hF hv rfl, hlen, hD.length_eq, List.length_append,
        List.length_append]
      simp only [Tree.collapsed, Tree.ptrs, List.length_cons, List.length_nil, List.length_append]
      omega
  | @shortenChain a L U ls n s' hU hA hoff hn hpar hundo =>
      obtain ⟨D, hD⟩ := Forest.exists_ptrs_perm hU
      have hlen := (Forest.ptrs_swap (S := L) hF hU hD).length_eq
      have hls := List.length_pos_iff.2 hA.ne
      have hU' := hA.hung.length_ptrs
      rw [hD.length_eq, hlen, List.length_append, List.length_append]
      omega

/-- **Every chain can be taken out in a step.** -/
theorem exists_shortenChain (hF : Held width fuel s F) {ls : List Label} (hls : ls ≠ []) {lower upper : Label}
    (hchain : List.IsChain s.Link (lower :: ls)) (hupper : (lower :: ls).getLast? = some upper) :
    ∃ a s' F', ShortenChainAction.doAction fuel lower upper s = some (a, s') ∧
      Step width fuel s F (.shortenChain a) s' F' ∧ Held width fuel s' F' ∧ F.Without ls F' ∧
      ∀ x y, x ∉ ls → y ∉ ls → s.Link x y → s'.Link x y := by
  obtain ⟨a, s', L, U, hdo, rfl, hA, hU, hF', hI', hoff, n, hn, hpar⟩ :=
    Forest.exists_shelved hF.wellFormed hF.indexed hF.length_le hls hchain hupper
  obtain ⟨a₁, s₁, hdo₁, hundo⟩ := Forest.undoAction_shortened hF.wellFormed hF.indexed hF.length_le hls hchain hupper
  obtain ⟨rfl, rfl⟩ := Prod.mk.inj (Option.some.inj (hdo.symm.trans hdo₁))
  obtain ⟨a₂, s₂, G, hdo₂, hsh⟩ := Forest.exists_shorten hF.wellFormed hF.indexed hF.length_le hls hchain hupper
  obtain ⟨rfl, rfl⟩ := Prod.mk.inj (Option.some.inj (hdo.symm.trans hdo₂))
  have hG : Held width fuel s' G := ⟨hsh.wellFormed, hsh.indexed, hsh.length_le.trans hF.length_le⟩
  have hstep : Step width fuel s F (.shortenChain a) s' (F.replaceAt U.ptr L) := .shortenChain hU hA hoff hn hpar hundo
  have hheld : Held width fuel s' (F.replaceAt U.ptr L) :=
    ⟨hF', hI', (hstep.length_lt hF.wellFormed.valid).le.trans hF.length_le⟩
  obtain rfl : G = F.replaceAt U.ptr L := hG.read.symm.trans hheld.read
  obtain ⟨hlabels, hclusters⟩ := Forest.clusters_replaceAt hF.wellFormed.valid hU hA.hung
  exact ⟨a, s', _, hdo, hstep, hheld, ⟨hsh.leaf_mem, hlabels, hclusters⟩, hsh.link⟩

/-- **A run of the reductions** on all forests, with what is on the stacks of the rules. -/
inductive Run (width fuel : ℕ) (forests₀ : List Store) (Fs₀ : List Forest) :
    List (ℕ × ReductionAction) → List Store → List Forest → Prop
  | nil (h : List.Forall₂ (Held width fuel) forests₀ Fs₀) : Run width fuel forests₀ Fs₀ [] forests₀ Fs₀
  | step {stack : List (ℕ × ReductionAction)} {forests : List Store} {Fs : List Forest} {i : ℕ} {s s' : Store}
      {F F' : Forest} {act : ReductionAction} (h : Run width fuel forests₀ Fs₀ stack forests Fs)
      (hs : forests[i]? = some s) (hF : Fs[i]? = some F) (hstep : Step width fuel s F act s' F')
      (hF' : Held width fuel s' F') :
      Run width fuel forests₀ Fs₀ ((i, act) :: stack) (forests.set i s') (Fs.set i F')

section Run

variable {forests₀ forests : List Store} {Fs₀ Fs : List Forest} {stack : List (ℕ × ReductionAction)} {i : ℕ}

/-- A relation between lists holds after a write to both. -/
theorem forall₂_set {α β : Type} {R : α → β → Prop} {l : List α} {l' : List β} (h : List.Forall₂ R l l') {a : α} {b : β}
    (hab : R a b) (i : ℕ) : List.Forall₂ R (l.set i a) (l'.set i b) := by
  induction h generalizing i with
  | nil => exact .nil
  | cons hcd hrest ih =>
      cases i with
      | zero => exact .cons hab hrest
      | succ i => exact .cons hcd (ih i)

/-- The sum over a list after a write. -/
theorem sum_map_set {α : Type} (f : α → ℕ) {l : List α} {i : ℕ} (a : α) {b : α} (h : l[i]? = some b) :
    ((l.set i a).map f).sum + f b = (l.map f).sum + f a := by
  induction l generalizing i with
  | nil => cases h
  | cons c l ih =>
      cases i with
      | zero =>
          obtain rfl := Option.some.inj h
          simp only [List.set_cons_zero, List.map_cons, List.sum_cons]
          omega
      | succ i =>
          have := ih (i := i) h
          simp only [List.set_cons_succ, List.map_cons, List.sum_cons]
          omega

/-- The memory holds the forests all the time. -/
theorem Run.held (h : Run width fuel forests₀ Fs₀ stack forests Fs) : List.Forall₂ (Held width fuel) forests Fs := by
  induction h with
  | nil h => exact h
  | step _ _ _ _ hF' ih => exact forall₂_set ih hF' _

/-- **The run can be undone.** -/
theorem Run.undo (h : Run width fuel forests₀ Fs₀ stack forests Fs) :
    popAll (undoAt (ReductionAction.undo fuel)) stack forests = some forests₀ := by
  induction h with
  | nil => rfl
  | @step stack forests Fs i s s' F F' act h hs hF hstep hF' ih =>
      obtain ⟨hi, rfl⟩ := List.getElem?_eq_some_iff.1 hs
      have hset : (forests.set i s')[i]? = some s' := by
        rw [List.getElem?_set_self hi]
      rw [popAll_cons, undoAt, hset]
      simp only [Option.bind_eq_bind, Option.bind_some, hstep.undo, List.set_set, List.set_getElem_self]
      exact ih

/-- No forest is added or lost. -/
theorem Run.length_eq (h : Run width fuel forests₀ Fs₀ stack forests Fs) : forests.length = forests₀.length := by
  induction h with
  | nil => rfl
  | step _ _ _ _ _ ih => rw [List.length_set, ih]

/-- No forest grows. -/
theorem Run.length_lt (h : Run width fuel forests₀ Fs₀ stack forests Fs) {n : ℕ} (h₀ : ∀ F ∈ Fs₀, F.ptrs.length < n) :
    ∀ F ∈ Fs, F.ptrs.length < n := by
  induction h with
  | nil => exact h₀
  | @step stack forests Fs i s s' F F' act h hs hF hstep hF' ih =>
      intro G hG
      rcases List.mem_or_eq_of_mem_set hG with hG | rfl
      · exact ih G hG
      · obtain ⟨hi, hFi⟩ := List.getElem?_eq_some_iff.1 hF
        obtain ⟨hi', hsi⟩ := List.getElem?_eq_some_iff.1 hs
        have hheld : Held width fuel s F := hFi ▸ hsi ▸ (List.forall₂_iff_get.1 h.held).2 i hi' hi
        exact (hstep.length_lt hheld.wellFormed.valid).trans (ih F (List.mem_of_getElem? hF))

/-- Each step takes a node away. -/
theorem Run.length_le (h : Run width fuel forests₀ Fs₀ stack forests Fs) :
    stack.length + (Fs.map fun F => F.ptrs.length).sum ≤ (Fs₀.map fun F => F.ptrs.length).sum := by
  induction h with
  | nil => simp
  | @step stack forests Fs i s s' F F' act h hs hF hstep hF' ih =>
      obtain ⟨hi, hFi⟩ := List.getElem?_eq_some_iff.1 hF
      obtain ⟨hi', hsi⟩ := List.getElem?_eq_some_iff.1 hs
      have hheld : Held width fuel s F := hFi ▸ hsi ▸ (List.forall₂_iff_get.1 h.held).2 i hi' hi
      have hlt := hstep.length_lt hheld.wellFormed.valid
      have hsum := sum_map_set (fun F : Forest => F.ptrs.length) F' hF
      rw [List.length_cons]
      omega

end Run

end Reduction

namespace ChainReductionRule

open Reduction

variable {width fuel t : ℕ} {forests₀ forests : List Store} {Fs₀ Fs : List Forest} {stack : List (ℕ × ReductionAction)}

/-- The stack of the rule among the actions of all rules. -/
def actions (changes : List (ℕ × ShortenChainAction)) : List (ℕ × ReductionAction) :=
  changes.map (Prod.map id ReductionAction.shortenChain)

/-- **One chain is shortened in all forests**, from the forest at hand on. -/
theorem mapM_doAction_run {lower upper : Label} {ls : List Label} (hls : ls ≠ [])
    (hupper : (lower :: ls).getLast? = some upper) {pre : List Store} {preF : List Forest}
    (hpre : preF.length = pre.length)
    (hFs : List.Forall₂ (Held width fuel) forests Fs)
    (hrun : Run width fuel forests₀ Fs₀ stack (pre ++ forests) (preF ++ Fs))
    (hchain : (lower :: ls).IsChain (Links forests)) :
    ∃ done Fs', forests.mapM (ShortenChainAction.doAction fuel lower upper) = some done ∧
      Run width fuel forests₀ Fs₀ (actions (((done.map Prod.fst).zipIdx pre.length).map Prod.swap).reverse ++ stack)
        (pre ++ done.map Prod.snd) (preF ++ Fs') ∧ List.Forall₂ (Forest.Without ls) Fs Fs' ∧
      ∀ x y, x ∉ ls → y ∉ ls → Links forests x y → Links (done.map Prod.snd) x y := by
  induction hFs generalizing pre preF stack with
  | nil => exact ⟨[], [], rfl, hrun, .nil, fun x y _ _ _ s hs => by cases hs⟩
  | @cons s F forests Fs hF hFs ih =>
      obtain ⟨a, s', F', hdo, hstep, hF', hremoved, hlink⟩ := exists_shortenChain hF hls
        (hchain.imp fun x y h => h s (List.mem_cons_self ..)) hupper
      have hnext := hrun.step (i := pre.length) (by simp) (by simp [← hpre]) hstep hF'
      rw [List.set_append_right _ _ le_rfl, Nat.sub_self, List.set_cons_zero, ← hpre, List.set_append_right _ _ le_rfl,
        Nat.sub_self, List.set_cons_zero, List.append_cons, List.append_cons preF] at hnext
      obtain ⟨done, Fs', hdone, hrun', hremoved', hlinks⟩ := ih (by simp [hpre]) hnext
        (hchain.imp fun x y h s' hs' => h s' (List.mem_cons_of_mem _ hs'))
      refine ⟨(a, s') :: done, F' :: Fs', ?_, ?_, .cons hremoved hremoved', fun x y hx hy h => ?_⟩
      · rw [List.mapM_cons, hdo, Option.bind_eq_bind, Option.bind_some, hdone]
        rfl
      · rw [List.length_append, List.length_singleton] at hrun'
        simpa [actions, hpre] using hrun'
      · rw [List.map_cons]
        refine List.forall_mem_cons.2 ⟨hlink x y hx hy (h s (List.mem_cons_self ..)), ?_⟩
        exact hlinks x y hx hy fun s' hs' => h s' (List.mem_cons_of_mem _ hs')

/-- **One chain shortened in all forests keeps `k*`**, and the labels of the forests stay the same. -/
theorem kStar_without {chain : List Label} (hFs : List.Forall₂ (Held width fuel) forests Fs) (hne : forests ≠ [])
    (hsame : ∀ F ∈ Fs, ∀ G ∈ Fs, F.labels = G.labels) (hchain : chain.IsChain (Links forests))
    (hlen : forests.length + 1 < chain.length) {Fs' : List Forest} (hFs' : ∀ F ∈ Fs', F.Valid)
    (hwithout : List.Forall₂ (Forest.Without (chain.drop (forests.length + 1))) Fs Fs') :
    kStar Fs' = kStar Fs ∧ ∀ F ∈ Fs', ∀ G ∈ Fs', F.labels = G.labels := by
  obtain ⟨s₀, hs₀⟩ := List.exists_mem_of_ne_nil forests hne
  obtain ⟨F₀, hF₀, hheld₀⟩ := (Scan.forall₂_mem hFs).1 s₀ hs₀
  set n := forests.length + 1 with hn
  have hnodup : chain.Nodup := (isCommonChain hFs hs₀ hchain (by omega)).nodup
  obtain ⟨c, ls, hcons⟩ := List.exists_cons_of_ne_nil (List.ne_nil_of_length_pos (show 0 < chain.length by omega))
  have hls : ls ≠ [] := List.ne_nil_of_length_pos (by rw [hcons, List.length_cons] at hlen; omega)
  set S := F₀.labels with hS
  have hlabels : ∀ F ∈ Fs, F.labels = S := fun F hF => hsame F hF F₀ hF₀
  have hlabels' : ∀ F' ∈ Fs', F'.labels = S \ (chain.drop n).toFinset := fun F' hF' => by
    obtain ⟨F, hF, h⟩ := (Scan.forall₂_mem hwithout).2 F' hF'
    rw [h.labels, hlabels F hF]
  have hchained : ∀ C ∈ Instance.clusters Fs, ∃ A, Chained C A chain.toFinset chain.idxOf := by
    intro C hC
    obtain ⟨F, hF, rfl⟩ := Instance.mem_clusters.1 hC
    obtain ⟨s, hs, hheld⟩ := (Scan.forall₂_mem hFs).2 F hF
    rw [hcons] at hchain ⊢
    exact F.chained_of_isChain hheld.wellFormed hheld.indexed hls (hchain.imp fun x y h => h s hs)
  choose! A hA using hchained
  -- the labels of the chain are there, the first ones stay
  have hsub : chain.toFinset ⊆ S := by
    have hC : F₀.clusters ∈ Instance.clusters Fs := Instance.mem_clusters.2 ⟨F₀, hF₀, rfl⟩
    have htop : A F₀.clusters ∪ chain.toFinset ⊆ S := Forest.subset_labels (hA _ hC).mem_top
    exact Finset.subset_union_right.trans htop
  have hsplit : ∀ {x}, x ∈ chain → (x ∉ chain.drop n ↔ chain.idxOf x < n) := fun {x} hx => by
    rw [← List.mem_take_iff_idxOf_lt hx]
    have happ := List.take_append_drop n chain
    constructor
    · intro hdrop
      rw [← happ, List.mem_append] at hx
      exact hx.resolve_right hdrop
    · intro htake hdrop
      rw [← happ, List.nodup_append] at hnodup
      exact hnodup.2.2 x htake x hdrop rfl
  have hkept : (S \ (chain.drop n).toFinset) ∩ chain.toFinset = (chain.take n).toFinset := by
    ext x
    rw [Finset.mem_inter, Finset.mem_sdiff, List.mem_toFinset, List.mem_toFinset, List.mem_toFinset]
    constructor
    · rintro ⟨⟨-, hdrop⟩, hx⟩
      exact (List.mem_take_iff_idxOf_lt hx).2 ((hsplit hx).1 hdrop)
    · intro hx
      have hmem := List.mem_of_mem_take hx
      exact ⟨⟨hsub (List.mem_toFinset.2 hmem), (hsplit hmem).2 ((List.mem_take_iff_idxOf_lt hmem).1 hx)⟩, hmem⟩
  refine ⟨kStar_chain (S := S) (T := S \ (chain.drop n).toFinset) (A := A)
    ⟨List.ne_nil_of_mem hF₀, fun F hF => ?_, hlabels⟩ ⟨?_, fun F hF => (hFs' F hF).distinct, hlabels'⟩
    Finset.sdiff_subset ?_
    hA ?_ ?_ ?_, fun F hF G hG => (hlabels' F hF).trans (hlabels' G hG).symm⟩
  · obtain ⟨s, -, hheld⟩ := (Scan.forall₂_mem hFs).2 F hF
    exact hheld.wellFormed.valid.distinct
  · obtain ⟨F', hF', -⟩ := (Scan.forall₂_mem hwithout).1 F₀ hF₀
    exact List.ne_nil_of_mem hF'
  · rw [Instance.clusters, Instance.clusters, List.map_map, ← List.forall₂_eq_eq_eq, List.forall₂_map_left_iff,
      List.forall₂_map_right_iff]
    refine List.forall₂_iff_get.2 ⟨hwithout.length_eq.symm, fun i h₁ h₂ => ?_⟩
    have h := (List.forall₂_iff_get.1 hwithout).2 i h₂ h₁
    rw [h.clusters, hlabels _ (List.get_mem ..)]
    rfl
  · refine Finset.sdiff_subset_sdiff (Finset.Subset.refl _) fun x hx => ?_
    exact List.mem_toFinset.2 (List.mem_of_mem_drop (List.mem_toFinset.1 hx))
  · intro x hx e he heT
    have hex : e ∈ chain.drop n := by
      by_contra hdrop
      exact heT (Finset.mem_sdiff.2 ⟨hsub he, fun hmem => hdrop (List.mem_toFinset.1 hmem)⟩)
    rw [hkept, List.mem_toFinset] at hx
    have hlt := (List.mem_take_iff_idxOf_lt (List.mem_of_mem_take hx)).1 hx
    have hge := mt (hsplit (List.mem_toFinset.1 he)).2 (not_not.2 hex)
    omega
  · rw [hkept, List.toFinset_card_of_nodup (hnodup.sublist (List.take_sublist ..)), List.length_take, ← hFs.length_eq]
    omega

/-- **All chains are shortened**, and `k*` is kept. -/
theorem shortenChains_run {chains : List (List Label)} {pairs : List (Label × Label)} (hforests : forests ≠ [])
    (hsame : ∀ F ∈ Fs, ∀ G ∈ Fs, F.labels = G.labels) (ht : forests.length = t)
    (hrep : List.Forall₂ (Reports t) chains pairs) (hchains : ∀ chain ∈ chains, chain.IsChain (Links forests))
    (hdisj : chains.Pairwise List.Disjoint) {changes : List (ℕ × ShortenChainAction)}
    (hrun : Run width fuel forests₀ Fs₀ (actions changes ++ stack) forests Fs) :
    ∃ changes' forests' Fs', shortenChains fuel pairs changes forests = some (changes', forests') ∧
      Run width fuel forests₀ Fs₀ (actions changes' ++ stack) forests' Fs' ∧
      List.Forall₂ (Removed (chains.flatMap fun chain => chain.drop (t + 1))) Fs Fs' ∧ kStar Fs' = kStar Fs := by
  induction hrep generalizing forests Fs changes with
  | nil => exact ⟨changes, forests, Fs, rfl, hrun, List.forall₂_same.2 fun F _ q x m => by simp, rfl⟩
  | @cons chain ends chains pairs hrep _ ih =>
      rw [List.forall_mem_cons] at hchains
      rw [List.pairwise_cons] at hdisj
      obtain ⟨ls, hls, hdrop, hne, hlast⟩ := hrep.exists_drop
      have hnil : ([] : List Forest).length = ([] : List Store).length := rfl
      obtain ⟨done, Fs₁, hdone, hrun₁, hwithout, hlinks⟩ := mapM_doAction_run hne hlast hnil hrun.held hrun
        (hdrop ▸ hchains.1.drop t)
      -- the other chains have no terminal of this one
      have hout : ∀ c ∈ chains, ∀ x ∈ c, x ∉ ls := fun c hc x hx hxls =>
        hdisj.1 c hc (List.mem_of_mem_drop (hls ▸ hxls)) hx
      have hnext : Run width fuel forests₀ Fs₀
          (actions (((done.map Prod.fst).zipIdx.map Prod.swap).reverse ++ changes) ++ stack)
              (done.map Prod.snd) Fs₁ := by
        rw [actions, List.map_append, List.append_assoc]
        exact hrun₁
      have hlen : (done.map Prod.snd).length = forests.length := hnext.held.length_eq.trans
        (hwithout.length_eq.symm.trans hrun.held.length_eq.symm)
      obtain ⟨hkStar, hsame₁⟩ := kStar_without hrun.held hforests hsame hchains.1 (ht ▸ hrep.1)
        (fun F hF => by
          obtain ⟨s, -, hheld⟩ := (Scan.forall₂_mem hnext.held).2 F hF
          exact hheld.wellFormed.valid) (by rwa [ht, ← hls])
      obtain ⟨changes', forests', Fs', hshort, hrun', hremoved', hkStar'⟩ := ih
        (List.ne_nil_of_length_pos (hlen ▸ List.length_pos_iff.2 hforests)) hsame₁ (hlen.trans ht)
        (fun c hc => (hchains.2 c hc).imp_of_mem_imp fun x y hx hy => hlinks x y (hout c hc x hx) (hout c hc y hy))
        hdisj.2 hnext
      refine ⟨changes', forests', Fs', ?_, hrun', ?_, hkStar'.trans hkStar⟩
      · rw [shortenChains, hdone]
        exact hshort
      · rw [List.flatMap_cons, ← hls]
        refine Scan.forall₂_trans ?_ (hwithout.imp fun _ _ h => h.removed) hremoved'
        exact fun F F₁ F₂ => Removed.trans

/-- The terminals that stay are the same in all forests. -/
theorem sameTerminals_of_removed {ls : List Label} {F F' G G' : Forest} (hF : Removed ls F F') (hG : Removed ls G G')
    (h : F.SameTerminals G) : F'.SameTerminals G' := fun x m => by
  rw [exists_congr fun p => hF p x m, exists_congr fun p => hG p x m, exists_and_right, exists_and_right, h x m]

end ChainReductionRule

namespace Tree

/-- A subtree that the collapse does not touch. -/
theorem mem_subtrees_collapse {p : Ptr} {u t : Tree} (hu : u ∈ t.subtrees) (hp : p ∉ u.ptrs)
    (hout : ∀ w ∈ t.subtrees, w.ptr = p → u ∉ w.subtrees) : u ∈ (t.collapse p).subtrees := by
  induction t with
  | leaf => exact hu
  | node q l r ihl ihr =>
      have hq : q ≠ p := fun he => hout _ (mem_subtrees_self _) he hu
      rcases mem_subtrees_node.1 hu with rfl | hu | hu
      · rw [collapse_of_notMem hp]
        exact mem_subtrees_self _
      · rw [collapse, if_neg hq]
        refine mem_subtrees_node.2 (Or.inr (Or.inl (ihl hu fun w hw => hout w ?_)))
        exact mem_subtrees_node.2 (Or.inr (Or.inl hw))
      · rw [collapse, if_neg hq]
        refine mem_subtrees_node.2 (Or.inr (Or.inr (ihr hu fun w hw => hout w ?_)))
        exact mem_subtrees_node.2 (Or.inr (Or.inr hw))

end Tree

namespace Forest

variable {F G : Forest} {u v : Tree} {vs ws : List Tree}

/-- The forest with the subtrees at some addresses collapsed, one after another. -/
def collapseAll (ps : List Ptr) (F : Forest) : Forest := ps.foldl (fun F p => F.collapse p) F

/-- Each of them is an inner node when its turn comes. -/
def Collapsible : List Ptr → Forest → Prop
  | [], _ => True
  | p :: ps, F => (∃ l r, Tree.node p l r ∈ F.subtrees) ∧ Collapsible ps (F.collapse p)

/-- A subtree apart from the one that is collapsed stays. -/
theorem mem_subtrees_collapse (hF : F.Valid) (hu : u ∈ F.subtrees) (hv : v ∈ F.subtrees)
    (hdis : ∀ x ∈ v.ptrs, x ∉ u.ptrs) : u ∈ (F.collapse v.ptr).subtrees := by
  obtain ⟨t, ht, hut⟩ := mem_subtrees.1 hu
  refine mem_subtrees.2 ⟨_, List.mem_map_of_mem ht, Tree.mem_subtrees_collapse hut
    (hdis _ (Tree.ptr_mem_ptrs (Tree.mem_subtrees_self v))) fun w hw he huw => ?_⟩
  obtain rfl := eq_of_ptr_eq hF.nodup (mem_subtrees.2 ⟨t, ht, hw⟩) hv he
  exact hdis _ (Tree.ptr_mem_ptrs huw) (Tree.ptr_mem_ptrs (Tree.mem_subtrees_self u))

/-- **Subtrees that do not overlap can all be collapsed**; their terminals and those outside of them
are left. -/
theorem collapsible_of_disjoint (hF : F.Valid) (hvs : ∀ v ∈ vs, v ∈ F.subtrees ∧ v.isTerminal = false)
    (hdis : vs.Pairwise fun u v => ∀ x ∈ u.ptrs, x ∉ v.ptrs) : Collapsible (vs.map Tree.ptr) F ∧
      ∀ q x m, Tree.leaf q x m ∈ (F.collapseAll (vs.map Tree.ptr)).subtrees ↔
        (∃ v ∈ vs, Tree.leaf q x m = v.collapsed) ∨ Tree.leaf q x m ∈ F.subtrees ∧ ∀ v ∈ vs, q ∉ v.ptrs := by
  induction vs generalizing F with
  | nil => exact ⟨trivial, fun q x m => by simp [collapseAll]⟩
  | cons v vs ih =>
      rw [List.forall_mem_cons] at hvs
      rw [List.pairwise_cons] at hdis
      obtain ⟨p, l, r, rfl⟩ : ∃ p l r, v = .node p l r := by
        cases v with
        | leaf => exact absurd hvs.1.2 (by simp [Tree.isTerminal])
        | node p l r => exact ⟨p, l, r, rfl⟩
      obtain ⟨hcol, hleaf⟩ := ih (hF.collapse p)
        (fun u hu => ⟨mem_subtrees_collapse hF (hvs.2 u hu).1 hvs.1.1 (hdis.1 u hu),
        (hvs.2 u hu).2⟩) hdis.2
      refine ⟨⟨⟨l, r, hvs.1.1⟩, hcol⟩, fun q x m => ?_⟩
      rw [show F.collapseAll ((Tree.node p l r :: vs).map Tree.ptr) =
        (F.collapse p).collapseAll (vs.map Tree.ptr) from rfl,
        hleaf, leaf_mem_collapse hF hvs.1.1, List.exists_mem_cons_iff, List.forall_mem_cons]
      have hq : Tree.leaf q x m = (Tree.node p l r).collapsed → ∀ v ∈ vs, q ∉ v.ptrs := fun he v hv => by
        obtain ⟨rfl, -, -⟩ := Tree.leaf.inj he
        exact hdis.1 v hv _ (Tree.ptr_mem_ptrs (Tree.mem_subtrees_self _))
      constructor
      · rintro (h | ⟨h | h, hall⟩)
        · exact Or.inl (Or.inr h)
        · exact Or.inl (Or.inl h)
        · exact Or.inr ⟨h.1, h.2, hall⟩
      · rintro ((h | h) | h)
        · exact Or.inr ⟨Or.inl h, hq h⟩
        · exact Or.inl h
        · exact Or.inr ⟨Or.inr ⟨h.1, h.2.1⟩, h.2.2⟩

/-- **Common subtrees collapsed in two forests**: the terminals are the same again. -/
theorem sameTerminals_collapseAll (hF : F.Valid) (hG : G.Valid) (hsame : F.SameTerminals G)
    (hvs : ∀ v ∈ vs, v ∈ F.subtrees ∧ v.isTerminal = false) (hvd : vs.Pairwise fun u v => ∀ x ∈ u.ptrs, x ∉ v.ptrs)
    (hws : ∀ w ∈ ws, w ∈ G.subtrees ∧ w.isTerminal = false) (hwd : ws.Pairwise fun u v => ∀ x ∈ u.ptrs, x ∉ v.ptrs)
    (h : List.Forall₂ Tree.Identical vs ws) :
    (F.collapseAll (vs.map Tree.ptr)).SameTerminals (G.collapseAll (ws.map Tree.ptr)) := by
  -- one direction, for two forests
  have sub : ∀ {F G : Forest} {vs ws : List Tree}, F.Valid → G.Valid → F.SameTerminals G →
      (∀ v ∈ vs, v ∈ F.subtrees ∧ v.isTerminal = false) → (vs.Pairwise fun u v => ∀ x ∈ u.ptrs, x ∉ v.ptrs) →
      (∀ w ∈ ws, w ∈ G.subtrees ∧ w.isTerminal = false) → (ws.Pairwise fun u v => ∀ x ∈ u.ptrs, x ∉ v.ptrs) →
      List.Forall₂ Tree.Identical vs ws → ∀ x m, (∃ p, Tree.leaf p x m ∈ (F.collapseAll (vs.map Tree.ptr)).subtrees) →
        ∃ p, Tree.leaf p x m ∈ (G.collapseAll (ws.map Tree.ptr)).subtrees := by
    rintro F G vs ws hF hG hsame hvs hvd hws hwd h x m ⟨p, hp⟩
    have hG' := (collapsible_of_disjoint hG hws hwd).2
    rcases ((collapsible_of_disjoint hF hvs hvd).2 p x m).1 hp with ⟨v, hv, he⟩ | ⟨hp, hout⟩
    · obtain ⟨w, hw, hvw⟩ := (Scan.forall₂_mem h).1 v hv
      have hleast := hvw.least_eq (hF.of_mem_subtrees (hvs v hv).1) (hG.of_mem_subtrees (hws w hw).1)
      obtain ⟨-, rfl, rfl⟩ := Tree.leaf.inj he
      refine ⟨w.ptr, (hG' _ _ _).2 (Or.inl ⟨w, hw, ?_⟩)⟩
      rw [hleast, hvw.subtreeTerminals_eq, Tree.collapsed]
    · obtain ⟨q, hq⟩ := (hsame x m).1 ⟨p, hp⟩
      refine ⟨q, (hG' _ _ _).2 (Or.inr ⟨hq, fun w hw hqw => ?_⟩)⟩
      obtain ⟨v, hv, hvw⟩ := (Scan.forall₂_mem h).2 w hw
      have hx := (mem_subtreeTerminals_iff hG (hws w hw).1 hq (Finset.mem_insert_self x m)).2 hqw
      rw [← hvw.subtreeTerminals_eq] at hx
      exact hout v hv ((mem_subtreeTerminals_iff hF (hvs v hv).1 hp (Finset.mem_insert_self x m)).1 hx)
  exact fun x m => ⟨sub hF hG hsame hvs hvd hws hwd h x m, sub hG hF (fun x m => (hsame x m).symm) hws hwd hvs hvd
    (h.flip.imp fun _ _ h => h.symm) x m⟩

end Forest

namespace SubtreeReductionRule

open Reduction

variable {width fuel : ℕ} {forests₀ forests : List Store} {Fs₀ Fs : List Forest} {stack : List (ℕ × ReductionAction)}

/-- The stack of the rule among the actions of all rules. -/
def actions (changes : List (ℕ × CollapseSubtreeAction)) : List (ℕ × ReductionAction) :=
  changes.map (Prod.map id ReductionAction.collapseSubtree)

/-- **The subtrees are collapsed**, in any order of the forests. -/
theorem collapseSubtrees_run {todo : List (ℕ × Ptr)} {changes : List (ℕ × CollapseSubtreeAction)}
    (hrun : Run width fuel forests₀ Fs₀ (actions changes ++ stack) forests Fs) (hlt : ∀ e ∈ todo, e.1 < Fs.length)
    (hcol : ∀ (i : ℕ) (F : Forest), Fs[i]? = some F → F.Collapsible (entriesAt i todo)) :
    ∃ changes' forests' Fs', collapseSubtrees todo changes forests = some (changes', forests') ∧
      Run width fuel forests₀ Fs₀ (actions changes' ++ stack) forests' Fs' ∧ Fs'.length = Fs.length ∧
      ∀ (i : ℕ) (F : Forest), Fs[i]? = some F → Fs'[i]? = some (F.collapseAll (entriesAt i todo)) := by
  induction todo generalizing forests Fs changes with
  | nil => exact ⟨changes, forests, Fs, rfl, hrun, rfl, fun i F hF => hF⟩
  | cons e todo ih =>
      obtain ⟨i, p⟩ := e
      rw [List.forall_mem_cons] at hlt
      have hF : Fs[i]? = some Fs[i] := List.getElem?_eq_getElem hlt.1
      have hi : i < forests.length := hrun.held.length_eq ▸ hlt.1
      have hs : forests[i]? = some forests[i] := List.getElem?_eq_getElem hi
      have hheld := (List.forall₂_iff_get.1 hrun.held).2 i hi hlt.1
      have hhere := hcol i _ hF
      rw [entriesAt_cons_self] at hhere
      obtain ⟨⟨l, r, hv⟩, hrest⟩ := hhere
      obtain ⟨a, s', hc⟩ := Forest.exists_collapse hheld.wellFormed hheld.indexed hv
      have hF' : Held width fuel s' (Fs[i].collapse p) :=
        ⟨hc.wellFormed, hc.indexed, (Forest.ptrs_collapse p _).length_le.trans hheld.length_le⟩
      have hnext : Run width fuel forests₀ Fs₀ (actions ((i, a) :: changes) ++ stack) (forests.set i s')
          (Fs.set i (Fs[i].collapse p)) := hrun.step hs hF (.collapseSubtree hv hc) hF'
      obtain ⟨changes', forests', Fs', hdo, hrun', hlen, hget⟩ := ih hnext
        (by simpa using hlt.2) fun j F hFj => by
          rw [List.getElem?_set] at hFj
          split_ifs at hFj with hij
          · obtain rfl := Option.some.inj hFj
            exact hij ▸ hrest
          · have := hcol j F hFj
            rwa [entriesAt_cons_ne hij] at this
      refine ⟨changes', forests', Fs', ?_, hrun', by rw [hlen, List.length_set], fun j F hFj => ?_⟩
      · rw [collapseSubtrees, hs]
        simp only [Option.bind_eq_bind, Option.bind_some,
          show CollapseSubtreeAction.doAction p forests[i] = _ from hc.done]
        exact hdo
      · by_cases hij : i = j
        · subst hij
          obtain rfl := Option.some.inj (hF.symm.trans hFj)
          rw [entriesAt_cons_self, hget i (Fs[i].collapse p) (List.getElem?_set_self hlt.1)]
          rfl
        · rw [entriesAt_cons_ne hij]
          exact hget j F (by rwa [List.getElem?_set_ne hij])

/-- The pointers of one forest, in the order of the map. -/
theorem entriesAt_flatMap {lists : List (ℕ × List Ptr)} (hnodup : (lists.map Prod.fst).Nodup) {p : ℕ × List Ptr}
    (hp : p ∈ lists) : entriesAt p.1 (lists.flatMap fun p => p.2.map fun subtree => (p.1, subtree)) = p.2 := by
  have hsame : ∀ i (ps : List Ptr), entriesAt i (ps.map fun subtree => (i, subtree)) = ps := fun i ps => by
    induction ps with
    | nil => rfl
    | cons q ps ih => rw [List.map_cons, entriesAt_cons_self, ih]
  have hother : ∀ i j (ps : List Ptr), j ≠ i →
      entriesAt i (ps.map fun subtree => (j, subtree)) = [] := fun i j ps h => by
    induction ps with
    | nil => rfl
    | cons q ps ih => rw [List.map_cons, entriesAt_cons_ne h, ih]
  have hnone : ∀ {i : ℕ} {lists : List (ℕ × List Ptr)}, i ∉ lists.map Prod.fst →
      entriesAt i (lists.flatMap fun p => p.2.map fun subtree => (p.1, subtree)) = [] := fun {i lists} h => by
    induction lists with
    | nil => rfl
    | cons c lists ih =>
        rw [List.map_cons, List.mem_cons, not_or] at h
        rw [List.flatMap_cons, entriesAt_append, ih h.2, hother _ _ _ (Ne.symm h.1), List.append_nil]
  induction lists with
  | nil => cases hp
  | cons c lists ih =>
      rw [List.map_cons, List.nodup_cons] at hnodup
      rw [List.flatMap_cons, entriesAt_append]
      rcases List.mem_cons.1 hp with rfl | hp
      · rw [hsame, hnone hnodup.1, List.append_nil]
      · have hne : c.1 ≠ p.1 := fun he => hnodup.1 (he ▸ List.mem_map_of_mem (f := Prod.fst) hp)
        rw [ih hnodup.2 hp, hother _ _ _ hne, List.nil_append]

end SubtreeReductionRule

end Maf
