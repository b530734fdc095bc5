/-
# The parts of an apply

The bodies of `src/Solver/Rule/*.cpp` are made of a few parts: a node is cut off, the
terminal of a label is cut off in a forest, an edge is protected, a parent is
collapsed.  Each part is known once on a memory that holds forests
(`deleteEdge_eq`, `collapseParent_eq`), and a loop over forests or labels keeps what
its body keeps.

Most rules cut labels off, and all they need of the forests is that these have the
same labels (`Memory.Over`); it still holds when the rule was left at a protected
edge.
-/

import Maf.Rule.ReadBack

namespace Maf

open EarlyExit Prog
open Graph Body

/-- **The memory holds `t` forests with the labels `X`.** -/
def Memory.Over (width fuel t : ℕ) (X : Finset Label) (m : Memory) : Prop :=
  ∃ Fs : List Forest, m.Holds width fuel Fs ∧ Fs.length = t ∧ ∀ F ∈ Fs, F.labels = X

/-- The node that a change cuts off, with the number of its forest. -/
def Change.cutNode : Change → Option (ℕ × Ptr)
  | .deleteEdge i action => some (i, action.child)
  | .collapseSubtree .. => none

/-- The action remembers the node it cut. -/
theorem Graph.DeleteEdgeAction.child_of_doAction {fuel : ℕ} {p : Ptr} {s s' : Store} {action : DeleteEdgeAction}
    (h : DeleteEdgeAction.doAction fuel p s = some (action, s')) : action.child = p := by
  simp only [DeleteEdgeAction.doAction, Option.bind_eq_bind, Option.bind_eq_some_iff] at h
  obtain ⟨q, -, u, -, l, -, r, -, h⟩ := h
  split_ifs at h
  · obtain ⟨rfl, -⟩ := Prod.mk.inj (Option.some.inj h)
    rfl
  · obtain ⟨⟨i, j, s''⟩, -, h⟩ := Option.bind_eq_some_iff.1 h
    obtain ⟨rfl, -⟩ := Prod.mk.inj (Option.some.inj h)
    rfl

namespace Body

section Parts

variable {width fuel i : ℕ} {Fs : List Forest} {F : Forest} {m : Memory} {r : RuleObject}

/-- **A node that is no root is cut off.** -/
theorem deleteEdge_eq (hm : m.Holds width fuel Fs) (hF : Fs[i]? = some F) {u : Tree} (hu : u ∈ F.subtrees)
    (hroot : u ∉ F) (r : RuleObject) : ∃ action s', action.child = u.ptr ∧
      deleteEdge fuel i u.ptr (r, m) = some (false, { r with changes := .deleteEdge i action :: r.changes },
        { m with forests := m.forests.set i s' }) ∧
      Memory.Holds width fuel { m with forests := m.forests.set i s' } (Fs.set i (F.cut u)) ∧
      Keeps fuel (r, m) ({ r with changes := .deleteEdge i action :: r.changes },
        { m with forests := m.forests.set i s' }) := by
  obtain ⟨s, hs, hheld⟩ := hm.get hF
  obtain ⟨action, s', F', hdo, hcut, hheld', hundo⟩ := hheld.deleteEdge hu hroot
  refine ⟨action, s', DeleteEdgeAction.child_of_doAction hdo, ?_, ?_, keeps_change hs ?_⟩
  · simp only [deleteEdge, hs, hdo, Option.bind_eq_bind, Option.bind_some]
  · rw [Forest.cut_of_deleteEdge hcut]
    exact hm.set i hheld' m.protectedEdges
  · have hi : i < m.forests.length := (List.getElem?_eq_some_iff.1 hs).1
    simp only [RuleObject.undoChange, List.getElem?_set_self hi, hundo, Option.bind_eq_bind, Option.bind_some]

/-- The part for a node with a parent is left out at the roots. -/
theorem ifChild_eq (hm : m.Holds width fuel Fs) (hF : Fs[i]? = some F) {u : Tree} (hu : u ∈ F.subtrees)
    (f : Body) (r : RuleObject) : ifChild i u.ptr f (r, m) = if u ∈ F then skip (r, m) else f (r, m) := by
  obtain ⟨s, hs, hheld⟩ := hm.get hF
  simp only [ifChild, hs, Option.bind_eq_bind, Option.bind_some]
  rcases hheld.parent hu with ⟨hmem, hpar⟩ | ⟨hmem, q, -, -, -, -, hpar⟩
  · rw [hpar, if_pos hmem]
    rfl
  · rw [hpar, if_neg hmem]
    rfl

/-- The terminal of a label of the forest is found. -/
theorem withTerminal_eq (hm : m.Holds width fuel Fs) (hF : Fs[i]? = some F) {x : Label} (hx : x ∈ F.labels) :
    ∃ p merged, Tree.leaf p x merged ∈ F.subtrees ∧
      ∀ (f : Ptr → Body) (r : RuleObject), withTerminal x i f (r, m) = f p (r, m) := by
  obtain ⟨s, hs, hheld⟩ := hm.get hF
  obtain ⟨p, merged, hp, hleaf⟩ := hheld.labelToTerminal hx
  exact ⟨p, merged, hleaf, fun f r => by simp only [withTerminal, hs, hp, Option.bind_eq_bind, Option.bind_some]⟩

/-- The parent of a terminal is collapsed. -/
theorem collapseParent_eq (hm : m.Holds width fuel Fs) (hF : Fs[i]? = some F) {x : Label} {p q : Ptr}
    {merged : Finset Label} {u v : Tree} (hq : Tree.node q u v ∈ F.subtrees)
    (hx : u = .leaf p x merged ∨ v = .leaf p x merged) (r : RuleObject) :
    ∃ action s', collapseParent x i (r, m) = some (false, { r with changes := .collapseSubtree i action :: r.changes },
        { m with forests := m.forests.set i s' }) ∧
      Memory.Holds width fuel { m with forests := m.forests.set i s' } (Fs.set i (F.collapse q)) ∧
      Keeps fuel (r, m) ({ r with changes := .collapseSubtree i action :: r.changes },
        { m with forests := m.forests.set i s' }) := by
  obtain ⟨s, hs, hheld⟩ := hm.get hF
  obtain ⟨action, s', hdo, hheld', hundo⟩ := hheld.collapse hq
  have hpar : (s.nodes p).parent = some q := by
    obtain ⟨t, ht, hqt⟩ := Forest.mem_subtrees.1 hq
    obtain ⟨-, -, hu, hv⟩ := (hheld.wellFormed.stored.trees t ht).children hqt
    rcases hx with rfl | rfl
    · rw [show p = (Tree.leaf p x merged).ptr from rfl, hu.root]
      rfl
    · rw [show p = (Tree.leaf p x merged).ptr from rfl, hv.root]
      rfl
  have hterm : s.labelToTerminal x = some p := by
    obtain ⟨hu, hv⟩ := Forest.mem_subtrees_children hq
    refine (hheld.indexed.labelToTerminal p x).2 ⟨x, merged, ?_, Finset.mem_insert_self ..⟩
    rcases hx with rfl | rfl
    · exact hu
    · exact hv
  refine ⟨action, s', ?_, hm.set i hheld' m.protectedEdges, keeps_change hs ?_⟩
  · simp only [collapseParent, withTerminal, hs, hterm, hpar, hdo, Option.bind_eq_bind, Option.bind_some]
  · have hi : i < m.forests.length := (List.getElem?_eq_some_iff.1 hs).1
    simp only [RuleObject.undoChange, List.getElem?_set_self hi, hundo, Option.bind_eq_bind, Option.bind_some]

end Parts

section Over

variable {width fuel t i : ℕ} {X : Finset Label} {R : RuleObject × Memory → RuleObject × Memory → Prop}

/-- A running `apply` whose memory holds `t` forests with the labels `X`. -/
abbrev On (width fuel t : ℕ) (X : Finset Label) (y : RuleObject × Memory) : Prop := y.2.Over width fuel t X

/-- One forest is replaced by one with the same labels. -/
theorem on_set {Fs : List Forest} {F G : Forest} {m : Memory} {r : RuleObject} (hm : m.Holds width fuel (Fs.set i G))
    (hF : Fs[i]? = some F) (hG : G.labels = F.labels) (hlen : Fs.length = t) (hX : ∀ F ∈ Fs, F.labels = X) :
    On width fuel t X (r, m) := by
  refine ⟨_, hm, by rw [List.length_set, hlen], fun H hH => ?_⟩
  rcases List.mem_or_eq_of_mem_set hH with hH | rfl
  · exact hX H hH
  · exact hG.trans (hX F (List.mem_of_getElem? hF))

/-- **A node is cut off**, unless its edge is protected. -/
theorem cutNode_on {Fs : List Forest} {F : Forest} {m : Memory} (hm : m.Holds width fuel Fs)
    (hlen : Fs.length = t) (hX : ∀ F ∈ Fs, F.labels = X) (hF : Fs[i]? = some F) {u : Tree} (hu : u ∈ F.subtrees)
    (hroot : u ∉ F) (r : RuleObject) :
    ∃ b y, cutNode fuel i u.ptr (r, m) = some (b, y) ∧ Keeps fuel (r, m) y ∧ On width fuel t X y := by
  simp only [cutNode]
  split_ifs
  · exact ⟨true, (r, m), rfl, Std.Refl.refl _, Fs, hm, hlen, hX⟩
  · obtain ⟨s, -, hheld⟩ := hm.get hF
    obtain ⟨action, s', -, hcut, hm', hkeeps⟩ := deleteEdge_eq hm hF hu hroot r
    exact ⟨_, _, hcut, hkeeps, on_set hm' hF (Forest.cut_spec hheld.wellFormed.valid hu).2.1 hlen hX⟩

/-- The forest of a number. -/
theorem exists_forest {Fs : List Forest} (hlen : Fs.length = t) (hi : i < t) : ∃ F, Fs[i]? = some F :=
  ⟨Fs[i], List.getElem?_eq_getElem (hlen ▸ hi)⟩

/-- **The terminal of a label is cut off.** -/
theorem cutLabel_spec {x : Label} (hx : x ∈ X) (hi : i < t) :
    EarlyExit.Triple (Keeps fuel) (On width fuel t X) (On width fuel t X) (cutLabel fuel x i) (On width fuel t X) := by
  rintro ⟨r, m⟩ ⟨Fs, hm, hlen, hX⟩
  obtain ⟨F, hF⟩ := exists_forest hlen hi
  obtain ⟨p, merged, hleaf, heq⟩ := withTerminal_eq hm hF (hX F (List.mem_of_getElem? hF) ▸ hx)
  rw [cutLabel, heq, show p = (Tree.leaf p x merged).ptr from rfl, ifChild_eq hm hF hleaf]
  split_ifs with hroot
  · exact ⟨false, (r, m), rfl, Std.Refl.refl _, fun _ => ⟨Fs, hm, hlen, hX⟩, fun _ => ⟨Fs, hm, hlen, hX⟩⟩
  · obtain ⟨b, y, hcut, hkeeps, hon⟩ := cutNode_on hm hlen hX hF hleaf hroot r
    exact ⟨b, y, hcut, hkeeps, fun _ => hon, fun _ => hon⟩

/-- An edge is protected. -/
theorem protectNode_on {y : RuleObject × Memory} (hy : On width fuel t X y) (i : ℕ) (p : Ptr) :
    ∃ z, protectNode i p y = some (false, z) ∧ Extends fuel y z ∧ On width fuel t X z := by
  obtain ⟨r, m⟩ := y
  simp only [protectNode]
  split_ifs with hp
  · exact ⟨_, rfl, Std.Refl.refl _, hy⟩
  · obtain ⟨Fs, hm, hlen, hX⟩ := hy
    refine ⟨_, rfl, ⟨rfl, ⟨[], rfl, rfl⟩, {(i, p)}, ?_, ?_, ?_⟩, Fs, ⟨hm.length, hm.held⟩, hlen, hX⟩
    · rwa [Finset.disjoint_singleton_left]
    · exact Finset.insert_eq _ _ |>.trans (Finset.union_comm _ _)
    · exact Finset.insert_eq _ _ |>.trans (Finset.union_comm _ _)

/-- **One terminal is cut off and the other protected.** -/
theorem cutAndProtect_spec {toCut toKeep : Label} (hcut : toCut ∈ X) (hkeep : toKeep ∈ X) (hi : i < t) :
    EarlyExit.Triple (Extends fuel) (On width fuel t X) (On width fuel t X) (cutAndProtect fuel toCut toKeep i)
      (On width fuel t X) := by
  rintro ⟨r, m⟩ ⟨Fs, hm, hlen, hX⟩
  obtain ⟨F, hF⟩ := exists_forest hlen hi
  obtain ⟨p, merged, hleaf, heq⟩ := withTerminal_eq hm hF (hX F (List.mem_of_getElem? hF) ▸ hcut)
  rw [cutAndProtect, heq, show p = (Tree.leaf p toCut merged).ptr from rfl, ifChild_eq hm hF hleaf]
  split_ifs with hroot
  · exact ⟨false, (r, m), rfl, Std.Refl.refl _, fun _ => ⟨Fs, hm, hlen, hX⟩, fun _ => ⟨Fs, hm, hlen, hX⟩⟩
  · obtain ⟨b, ⟨r', m'⟩, hcut, hkeeps, hon⟩ := cutNode_on hm hlen hX hF hleaf hroot r
    cases b with
    | true => exact ⟨true, _, by rw [Prog.seq, hcut], hkeeps.toExtends, fun _ => hon, fun _ => hon⟩
    | false =>
        obtain ⟨Gs, hm', hlen', hX'⟩ := hon
        obtain ⟨G, hG⟩ := exists_forest hlen' hi
        obtain ⟨q, _, -, heq'⟩ := withTerminal_eq hm' hG (hX' G (List.mem_of_getElem? hG) ▸ hkeep)
        obtain ⟨z, hz, hext, hon'⟩ := protectNode_on (y := (r', m')) ⟨Gs, hm', hlen', hX'⟩ i q
        refine ⟨false, z, ?_, IsTrans.trans _ _ _ hkeeps.toExtends hext, fun _ => hon', fun _ => hon'⟩
        rw [Prog.seq, hcut]
        exact (heq' (protectNode i) r').trans hz

variable [Std.Refl R] [IsTrans (RuleObject × Memory) R] {A : RuleObject × Memory → Prop}

/-- A loop keeps what its body keeps. -/
theorem forEach_spec {α : Type*} {f : α → Body} {l : List α} (h : ∀ x ∈ l, EarlyExit.Triple R A A (f x) A) :
    EarlyExit.Triple R A A (forEach f l) A := by
  have hloop := EarlyExit.Triple.forEach (R := R) (E := A) (f := f) (I := fun xs y => (∀ x ∈ xs, x ∈ l) ∧ A y)
    (fun x xs y hy => ?_) l
  · exact hloop.conseq (fun y hy => ⟨fun x hx => hx, hy⟩) fun y hy => hy.2
  · obtain ⟨b, z, hf, hR, hE, hQ⟩ := h x (hy.1 x (List.mem_cons_self ..)) y hy.2
    exact ⟨b, z, hf, hR, hE, fun hb => ⟨fun x' hx' => hy.1 x' (List.mem_cons_of_mem _ hx'), hQ hb⟩⟩

/-- The loop over the forests. -/
theorem forEachForest_spec {f : ℕ → Body}
    (h : ∀ i < t, EarlyExit.Triple R (On width fuel t X) (On width fuel t X) (f i) (On width fuel t X)) :
    EarlyExit.Triple R (On width fuel t X) (On width fuel t X) (forEachForest f) (On width fuel t X) := by
  refine (forEach_spec fun i hi => h i (List.mem_range.1 hi)).congr ?_
  rintro ⟨r, m⟩ ⟨Fs, hm, hlen, -⟩
  rw [forEachForest, hm.length, hlen]

end Over

end Body

end Maf
