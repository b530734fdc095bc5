/-
# What a rule does can be undone

A memory holds forests when each of them lies in it well formed, with its two maps
(`Memory.Holds`).  Every part of an `apply` that starts there comes to an end, holds
forests again, and has pushed on the stack of the rule exactly the changes whose
undoing brings the memory back (`Extends`).  The parts are specified by triples, with
assertions about the forests.
-/

import Maf.Rule.AbstractRule
import Maf.Rule.ForcedCuts

namespace Maf

open EarlyExit Prog
open Graph

/-- A forest in memory, with its maps, and within the bound on its nodes. -/
structure Held (width fuel : ℕ) (s : Store) (F : Forest) : Prop where
  wellFormed : F.WellFormed width s
  indexed : F.Indexed s
  length_le : F.ptrs.length ≤ fuel

/-- **The memory holds the forests.** -/
structure Memory.Holds (width fuel : ℕ) (m : Memory) (Fs : List Forest) : Prop where
  length : m.forests.length = Fs.length
  held : ∀ {i : ℕ} {s : Store} {F : Forest}, m.forests[i]? = some s → Fs[i]? = some F → Held width fuel s F

section Held

variable {width fuel : ℕ} {s : Store} {F : Forest} {m : Memory} {Fs : List Forest}

/-- A forest that is held can be cut, and the cut undone. -/
theorem Held.deleteEdge (h : Held width fuel s F) {c : Tree} (hc : c ∈ F.subtrees) (hroot : c ∉ F) :
    ∃ act s' F', DeleteEdgeAction.doAction fuel c.ptr s = some (act, s') ∧ F.deleteEdge c = some F' ∧
      Held width fuel s' F' ∧ DeleteEdgeAction.undoAction fuel act s' = some s := by
  obtain ⟨act, s', F', hcut⟩ := Forest.exists_cut h.wellFormed h.length_le hc hroot
  have hlen := Forest.length_ptrs_deleteEdge h.wellFormed.valid hcut.cut
  refine ⟨act, s', F', hcut.done, hcut.cut, ⟨hcut.wellFormed, ?_, ?_⟩, hcut.undone⟩
  · exact h.indexed.congr hcut.labelToTerminal hcut.terminalToLabel fun p x m =>
      Forest.leaf_mem_deleteEdge h.wellFormed.valid hcut.cut
  · have := h.length_le
    omega

/-- A forest that is held can be collapsed, and the collapse undone. -/
theorem Held.collapse (h : Held width fuel s F) {p : Ptr} {l r : Tree} (hv : Tree.node p l r ∈ F.subtrees) :
    ∃ act s', CollapseSubtreeAction.doAction p s = some (act, s') ∧ Held width fuel s' (F.collapse p) ∧
      CollapseSubtreeAction.undoAction act s' = some s := by
  obtain ⟨act, s', hcol⟩ := Forest.exists_collapse h.wellFormed h.indexed hv
  exact ⟨act, s', hcol.done, ⟨hcol.wellFormed, hcol.indexed,
    (Forest.ptrs_collapse p F).length_le.trans h.length_le⟩, hcol.undone⟩

/-- Only the roots have no parent. -/
theorem Held.parent (h : Held width fuel s F) {c : Tree} (hc : c ∈ F.subtrees) :
    c ∈ F ∧ (s.nodes c.ptr).parent = none ∨
      c ∉ F ∧ ∃ q l r, Tree.node q l r ∈ F.subtrees ∧ (c = l ∨ c = r) ∧ (s.nodes c.ptr).parent = some q := by
  by_cases hroot : c ∈ F
  · refine Or.inl ⟨hroot, ?_⟩
    rw [(h.wellFormed.stored.trees c hroot).root]
    rfl
  · obtain ⟨q, l, r, hq, hcl⟩ := (Forest.root_or_child hc).resolve_left hroot
    refine Or.inr ⟨hroot, q, l, r, hq, hcl, ?_⟩
    obtain ⟨t, ht, hqt⟩ := Forest.mem_subtrees.1 hq
    obtain ⟨-, -, hl, hr⟩ := (h.wellFormed.stored.trees t ht).children hqt
    rcases hcl with rfl | rfl
    · rw [hl.root]
      rfl
    · rw [hr.root]
      rfl

/-- The terminal of a label. -/
theorem Held.labelToTerminal (h : Held width fuel s F) {x : Label} (hx : x ∈ F.labels) :
    ∃ p m, s.labelToTerminal x = some p ∧ Tree.leaf p x m ∈ F.subtrees := by
  obtain ⟨p, m, hp⟩ := Forest.exists_leaf hx
  exact ⟨p, m, (h.indexed.labelToTerminal p x).2 ⟨x, m, hp, Finset.mem_insert_self ..⟩, hp⟩

/-- The memory of one forest. -/
theorem Memory.Holds.get (h : m.Holds width fuel Fs) {i : ℕ} (hF : Fs[i]? = some F) :
    ∃ s, m.forests[i]? = some s ∧ Held width fuel s F := by
  have hi : i < m.forests.length := by
    rw [h.length]
    exact (List.getElem?_eq_some_iff.1 hF).1
  exact ⟨m.forests[i], List.getElem?_eq_getElem hi, h.held (List.getElem?_eq_getElem hi) hF⟩

/-- A write to one forest. -/
theorem Memory.Holds.set (h : m.Holds width fuel Fs) (i : ℕ) (hF : Held width fuel s F)
    (protectedEdges : Finset (ℕ × Ptr)) :
    Memory.Holds width fuel ⟨m.forests.set i s, protectedEdges⟩ (Fs.set i F) := by
  refine ⟨by rw [List.length_set, List.length_set, h.length], fun {j s' F'} hs' hF' => ?_⟩
  rw [List.getElem?_set] at hs' hF'
  split_ifs at hs' hF' with hij hlt hlt'
  · obtain rfl := Option.some.inj hs'
    obtain rfl := Option.some.inj hF'
    exact hF
  · exact h.held hs' hF'

end Held

/-- **What a part of an `apply` adds** to the rule: changes on its stack, whose
undoing brings the forests back, and protections of edges that were not
protected. -/
structure Extends (fuel : ℕ) (x y : RuleObject × Memory) : Prop where
  rule : y.1 = { x.1 with changes := y.1.changes, edgeProtections := y.1.edgeProtections }
  changes : ∃ new, y.1.changes = new ++ x.1.changes ∧
    RuleObject.undoChanges fuel new y.2.forests = some x.2.forests
  protections : ∃ added, Disjoint added x.2.protectedEdges ∧ y.2.protectedEdges = x.2.protectedEdges ∪ added ∧
    y.1.edgeProtections = x.1.edgeProtections ∪ added

/-- Nothing is protected. -/
structure Keeps (fuel : ℕ) (x y : RuleObject × Memory) : Prop extends Extends fuel x y where
  protectedEdges : y.2.protectedEdges = x.2.protectedEdges
  edgeProtections : y.1.edgeProtections = x.1.edgeProtections

namespace RuleObject

/-- Two lists of changes are undone one after the other. -/
theorem undoChanges_append (fuel : ℕ) (cs ds : List Change) (forests : List Store) :
    undoChanges fuel (cs ++ ds) forests = (undoChanges fuel cs forests).bind (undoChanges fuel ds) := by
  induction cs generalizing forests with
  | nil => rfl
  | cons c cs ih =>
      rw [List.cons_append, undoChanges, undoChanges]
      cases undoChange fuel forests c with
      | none => rfl
      | some forests' => exact ih forests'

end RuleObject

section Extends

variable {fuel : ℕ}

instance : Std.Refl (Extends fuel) :=
  ⟨fun _ => ⟨rfl, ⟨[], rfl, rfl⟩, ∅, Finset.disjoint_empty_left _, (Finset.union_empty _).symm,
    (Finset.union_empty _).symm⟩⟩

instance : IsTrans (RuleObject × Memory) (Extends fuel) := by
  refine ⟨fun x y z hxy hyz => ?_⟩
  obtain ⟨new, hnew, hundo⟩ := hxy.changes
  obtain ⟨new', hnew', hundo'⟩ := hyz.changes
  obtain ⟨added, hd, hp, he⟩ := hxy.protections
  obtain ⟨added', hd', hp', he'⟩ := hyz.protections
  refine ⟨?_, ⟨new' ++ new, by rw [hnew', hnew, List.append_assoc], ?_⟩, added ∪ added', ?_, ?_, ?_⟩
  · rw [hyz.rule, hxy.rule]
  · rw [RuleObject.undoChanges_append, hundo', Option.bind_some, hundo]
  · rw [hp, Finset.disjoint_union_right] at hd'
    exact Finset.disjoint_union_left.2 ⟨hd, hd'.1⟩
  · rw [hp', hp, Finset.union_assoc]
  · rw [he', he, Finset.union_assoc]

instance : Std.Refl (Keeps fuel) := ⟨fun x => ⟨Std.Refl.refl x, rfl, rfl⟩⟩

instance : IsTrans (RuleObject × Memory) (Keeps fuel) :=
  ⟨fun _ _ _ hxy hyz => ⟨IsTrans.trans _ _ _ hxy.toExtends hyz.toExtends,
    hyz.protectedEdges.trans hxy.protectedEdges, hyz.edgeProtections.trans hxy.edgeProtections⟩⟩

/-- One change on one forest. -/
theorem keeps_change {r : RuleObject} {m : Memory} {i : ℕ} {s s' : Store} {c : Change}
    (hs : m.forests[i]? = some s)
    (hundo : RuleObject.undoChange fuel (m.forests.set i s') c = some ((m.forests.set i s').set i s)) :
    Keeps fuel (r, m) ({ r with changes := c :: r.changes }, { m with forests := m.forests.set i s' }) := by
  have hset : (m.forests.set i s').set i s = m.forests := by
    obtain ⟨hi, rfl⟩ := List.getElem?_eq_some_iff.1 hs
    rw [List.set_set, List.set_getElem_self]
  refine ⟨⟨rfl, ⟨[c], rfl, ?_⟩, ∅, Finset.disjoint_empty_left _, (Finset.union_empty _).symm,
    (Finset.union_empty _).symm⟩, rfl, rfl⟩
  rw [RuleObject.undoChanges, hundo, hset]
  rfl

end Extends

end Maf
