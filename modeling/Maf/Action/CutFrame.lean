/-
# What a cut leaves alone

`DeleteEdgeAction::doAction` (`src/Solver/Action/DeleteEdgeAction.cpp`) writes to nodes of the forest
only (`doAction_frame`).  So what further cuts leave of a cut forest, they leave of the forest before
the cut (`Remnant.of_cut`): its terminals, none but its addresses, and the nodes off it.
-/

import Maf.Action.DeleteEdgeInMemory
import Maf.Action.ExpandSubtree
import Maf.Action.ShortenChainUndo

namespace Maf

open Graph

namespace Graph.DeleteEdgeAction

/-- Splicing a node out writes to its sibling, grandparent and uncle. -/
theorem spliceOut_of_ne {h : Nodes} {p o g u x : Ptr} (hg : x ≠ g) (ho : x ≠ o) (hu : x ≠ u) :
    spliceOut h p o g u x = h x := by
  unfold spliceOut
  split_ifs <;> simp only [Nodes.setSibling, Nodes.setParent, Nodes.setLeftChild, Nodes.setRightChild,
    Nodes.modify_of_ne _ _ hg, Nodes.modify_of_ne _ _ ho, Nodes.modify_of_ne _ _ hu]

/-- Only the sibling gets another parent. -/
theorem spliceOut_parent (h : Nodes) (p o g u x : Ptr) :
    (spliceOut h p o g u x).parent = if x = o then some g else (h x).parent := by
  unfold spliceOut
  split_ifs with hl hx hx <;>
    simp only [Nodes.setSibling, Nodes.setParent, Nodes.setLeftChild, Nodes.setRightChild, Nodes.modify_apply] <;>
    split_ifs <;> simp_all

end Graph.DeleteEdgeAction

namespace Forest

variable {width fuel : ℕ} {s s' : Store} {F : Forest} {a : DeleteEdgeAction}

/-- The parent and the sibling of a node lie in the forest. -/
theorem WellFormed.around_mem (hF : F.WellFormed width s) {c : Tree} (hc : c ∈ F.subtrees) {q : Ptr} :
    ((s.nodes c.ptr).parent = some q → q ∈ F.ptrs) ∧ ((s.nodes c.ptr).sibling = some q → q ∈ F.ptrs) := by
  have mem : ∀ {t : Tree}, t ∈ F.subtrees → t.ptr ∈ F.ptrs := fun ht => by
    rw [← map_ptr_subtrees]
    exact List.mem_map_of_mem ht
  rcases root_or_child hc with hroot | ⟨p, l, r, hp, hcl⟩
  · rw [(hF.stored.trees c hroot).root]
    exact ⟨nofun, nofun⟩
  · obtain ⟨t, ht, hpt⟩ := mem_subtrees.1 hp
    obtain ⟨-, -, hl, hr⟩ := (hF.stored.trees t ht).children hpt
    obtain ⟨hlF, hrF⟩ := mem_subtrees_children hp
    rcases hcl with rfl | rfl
    · rw [hl.root]
      exact ⟨fun h => Option.some.inj h ▸ mem hp, fun h => Option.some.inj h ▸ mem hrF⟩
    · rw [hr.root]
      exact ⟨fun h => Option.some.inj h ▸ mem hp, fun h => Option.some.inj h ▸ mem hlF⟩

/-- The same at an address. -/
theorem WellFormed.ptrs_closed (hF : F.WellFormed width s) {x y : Ptr} (hx : x ∈ F.ptrs) :
    ((s.nodes x).parent = some y → y ∈ F.ptrs) ∧ ((s.nodes x).sibling = some y → y ∈ F.ptrs) := by
  rw [← map_ptr_subtrees] at hx
  obtain ⟨c, hc, rfl⟩ := List.mem_map.1 hx
  exact hF.around_mem hc

/-- **A cut writes to the nodes of its forest only.** -/
theorem WellFormed.doAction_frame (hF : F.WellFormed width s) {c : Ptr} (hc : c ∈ F.ptrs)
    (h : DeleteEdgeAction.doAction fuel c s = some (a, s')) : ∀ q ∉ F.ptrs, s'.nodes q = s.nodes q := by
  intro q hq
  have hne : ∀ {x}, x ∈ F.ptrs → q ≠ x := fun hx he => hq (he ▸ hx)
  simp only [DeleteEdgeAction.doAction, Option.bind_eq_bind, Option.bind_eq_some_iff] at h
  obtain ⟨p, hp, o, ho, left, -, right, -, h⟩ := h
  have hpF := (hF.ptrs_closed hc).1 hp
  have hoF := (hF.ptrs_closed hc).2 ho
  split_ifs at h
  · obtain ⟨-, rfl⟩ := Prod.mk.inj (Option.some.inj h)
    simp only [DeleteEdgeAction.doParentIsRoot, Nodes.setSibling, Nodes.setParent, Nodes.modify_of_ne _ _ (hne hc),
      Nodes.modify_of_ne _ _ (hne hoF)]
  · obtain ⟨⟨i, j, s₁⟩, hinner, h⟩ := Option.bind_eq_some_iff.1 h
    obtain ⟨-, rfl⟩ := Prod.mk.inj (Option.some.inj h)
    simp only [DeleteEdgeAction.doParentIsInner, Option.bind_eq_bind, Option.bind_eq_some_iff] at hinner
    obtain ⟨g, hg, u, hu, ⟨root, h₁⟩, hrun, hinner⟩ := hinner
    have hgF := (hF.ptrs_closed hpF).1 hg
    have huF := (hF.ptrs_closed hpF).2 hu
    split_ifs at hinner
    obtain ⟨-, hinner⟩ := Prod.mk.inj (Option.some.inj hinner)
    obtain ⟨-, rfl⟩ := Prod.mk.inj hinner
    have hfirst : h₁ q = DeleteEdgeAction.spliceOut s.nodes p o g u q := by
      refine Nodes.propagate_frame hrun (D := {x | x ∈ F.ptrs}) (fun x hx => ?_) (fun x hx y hy => ?_) q hq
      · obtain rfl := Option.some.inj hx
        exact hpF
      · rw [DeleteEdgeAction.spliceOut_parent] at hy
        split_ifs at hy
        · exact Option.some.inj hy ▸ hgF
        · exact (hF.ptrs_closed hx).1 hy
    simp only [Nodes.setSibling, Nodes.setParent, Nodes.modify_of_ne _ _ (hne hc), hfirst]
    exact DeleteEdgeAction.spliceOut_of_ne (hne hgF) (hne hoF) (hne huF)

/-- The addresses of a cut forest are addresses of the forest. -/
theorem ptrs_cut_subset (hF : F.Valid) (u : Tree) : (F.cut u).ptrs ⊆ F.ptrs := by
  cases hdel : F.deleteEdge u with
  | none =>
      rw [cut, hdel, Option.getD_none]
      exact fun q hq => hq
  | some F' =>
      rw [cut_of_deleteEdge hdel]
      obtain ⟨t, rest, G, hG, hperm, hdet⟩ := perm_deleteEdge hF hdel
      obtain ⟨p, -, -, -, -, hptr⟩ := Tree.ptrs_detach hdet
      intro q hq
      refine (ptrs_perm hG).symm.subset ?_
      have hq' := (ptrs_perm hperm).subset hq
      simp only [ptrs, List.flatMap_cons, List.mem_append] at hq' ⊢
      rcases hq' with hq' | hq' | hq'
      · exact Or.inl (hptr.subset (by simp [hq']))
      · exact Or.inl (hptr.subset (by simp [hq']))
      · exact Or.inr hq'

/-- **What cuts leave of a cut forest**, they leave of the forest. -/
theorem Remnant.of_cut {s₁ : Store} {F₁ : Forest} (hF : F.WellFormed width s) {u : Tree} (hu : u ∈ F.subtrees)
    (hdo : DeleteEdgeAction.doAction fuel u.ptr s = some (a, s')) (h : Remnant width s' (F.cut u) s₁ F₁) :
    Remnant width s F s₁ F₁ := by
  have huF : u.ptr ∈ F.ptrs := by
    rw [← map_ptr_subtrees]
    exact List.mem_map_of_mem hu
  refine ⟨h.wellFormed, h.indexed, fun q x m => (h.leaves q x m).trans (leaf_mem_cut hF.valid),
    fun q hq => ptrs_cut_subset hF.valid u (h.ptrs hq), fun q hq => ?_⟩
  rw [h.frame q fun hq' => hq (ptrs_cut_subset hF.valid u hq'), hF.doAction_frame huF hdo q hq]

end Forest

end Maf
