/-
# When the pointers of the reader stay valid

`ReadNewick` keeps pointers into a vector that it appends to: the clades that are
open and the previous child.  A node is put into the clade that is open, which is
older than the previous child (`Reader.Upright`), so what counts is that no node is
put into a clade from before the last move of the vector (`Newick.Stable`); then
every node can be made (`Reader.safeTrees_iff`).  As long as there are no more nodes
than were reserved this holds of every text (`Newick.stable_of_few`).
-/

import Maf.Graph.ReadNewick

namespace Maf

namespace Newick

open Graph (moved)

/-- The clade that each node of a tree is put into, with the node: nodes get the
addresses from `address` on, and `clades` are open. -/
def attached (address : ℕ) (clades : List ℕ) : List Event → List (ℕ × ℕ)
  | [] => []
  | .terminal _ :: es => clades.head?.toList.map (·, address) ++ attached (address + 1) clades es
  | .clade :: es => clades.head?.toList.map (·, address) ++ attached (address + 1) (address :: clades) es
  | .close :: es => attached address clades.tail es

/-- The number of nodes of a tree. -/
def nodeCount (es : List Event) : ℕ := es.countP (· ≠ .close)

/-- The clade that each node of some trees is put into, with the node. -/
def attachedTrees : ℕ → List (List Event) → List (ℕ × ℕ)
  | _, [] => []
  | address, es :: ess => attached address [] es ++ attachedTrees (address + nodeCount es) ess

/-- **No node is put into a clade from before the last move of the vector.** -/
def Stable (reserved : ℕ) (ess : List (List Event)) : Prop :=
  ∀ edge ∈ attachedTrees 0 ess, moved reserved edge.2 ≤ edge.1

/-- Stability can be decided from the text. -/
instance (reserved : ℕ) (ess : List (List Event)) : Decidable (Stable reserved ess) :=
  inferInstanceAs (Decidable (∀ edge ∈ attachedTrees 0 ess, moved reserved edge.2 ≤ edge.1))

/-- Nodes are made one after another. -/
theorem lt_of_mem_attached {address : ℕ} {clades : List ℕ} {es : List Event} {edge : ℕ × ℕ}
    (h : edge ∈ attached address clades es) : edge.2 < address + nodeCount es := by
  induction es generalizing address clades with
  | nil => cases h
  | cons e es ih =>
      cases e with
      | terminal x =>
          rw [nodeCount, List.countP_cons_of_pos (by simp)]
          rcases List.mem_append.1 h with h | h
          · obtain ⟨p, -, rfl⟩ := List.mem_map.1 h
            show address < _
            omega
          · have := ih h
            rw [nodeCount] at this
            omega
      | clade =>
          rw [nodeCount, List.countP_cons_of_pos (by simp)]
          rcases List.mem_append.1 h with h | h
          · obtain ⟨p, -, rfl⟩ := List.mem_map.1 h
            show address < _
            omega
          · have := ih h
            rw [nodeCount] at this
            omega
      | close =>
          rw [nodeCount, List.countP_cons_of_neg (by simp)]
          exact ih h

/-- Nodes are made one tree after another. -/
theorem lt_of_mem_attachedTrees {address : ℕ} {ess : List (List Event)} {edge : ℕ × ℕ}
    (h : edge ∈ attachedTrees address ess) : edge.2 < address + (ess.map nodeCount).sum := by
  induction ess generalizing address with
  | nil => cases h
  | cons es ess ih =>
      rw [List.map_cons, List.sum_cons]
      rcases List.mem_append.1 h with h | h
      · have := lt_of_mem_attached h
        omega
      · have := ih h
        omega

/-- The vector has not moved before it is full. -/
theorem moved_of_lt {reserved address : ℕ} (h : address < reserved) : moved reserved address = 0 := by
  rw [moved, if_pos h]

/-- **A text with no more nodes than were reserved is stable.** -/
theorem stable_of_few {reserved : ℕ} {ess : List (List Event)} (h : (ess.map nodeCount).sum ≤ reserved) :
    Stable reserved ess := by
  intro edge hedge
  have hlt := lt_of_mem_attachedTrees hedge
  rw [moved_of_lt (by omega)]
  exact Nat.zero_le _

/-- The nodes of a topology. -/
theorem nodeCount_events (t : Shape) : nodeCount t.events = t.size := by
  induction t with
  | tip x => rfl
  | join a b iha ihb =>
      rw [nodeCount] at *
      rw [Shape.events, List.countP_cons_of_pos (by simp), List.countP_append, List.countP_append, iha, ihb,
        List.countP_cons_of_neg (by simp), Shape.size]
      rfl

/-- The nodes of some topologies. -/
theorem sum_nodeCount_events (ts : List Shape) : ((ts.map Shape.events).map nodeCount).sum = Shape.sizes ts := by
  rw [List.map_map, Shape.sizes]
  exact congrArg List.sum (List.map_congr_left fun t _ => nodeCount_events t)

end Newick

namespace Graph
namespace Reader

open Newick (Event attached attachedTrees nodeCount)

/-- **The clades that are open are older the further out they are**, and all of them
are older than the previous child. -/
structure Upright (σ : Reader) : Prop where
  stack : ∀ p ∈ σ.parentStack, p < σ.size
  nested : σ.parentStack.Pairwise (· > ·)
  sibling : ∀ q, σ.sibling = some q → ∀ p ∈ σ.parentStack, p < q

/-- Closing where no clade is open. -/
theorem close_nil {σ : Reader} (h : σ.parentStack = []) : σ.close = { σ with sibling := none } := by rw [close, h]

/-- Closing the clade that is open. -/
theorem close_cons {σ : Reader} {top : Ptr} {stack : List Ptr} (h : σ.parentStack = top :: stack) :
    σ.close = { σ with sibling := some top, parentStack := stack } := by rw [close, h]

/-- An event keeps the clades in order. -/
theorem Upright.step {σ : Reader} (h : σ.Upright) (e : Event) : (σ.step e).Upright := by
  cases e with
  | clade =>
      refine ⟨fun p hp => ?_, List.pairwise_cons.2 ⟨h.stack, h.nested⟩, fun q hq => by cases hq⟩
      rcases List.mem_cons.1 hp with rfl | hp
      · exact Nat.lt_succ_self _
      · exact (h.stack p hp).trans (Nat.lt_succ_self _)
  | terminal x =>
      refine ⟨fun p hp => (h.stack p hp).trans (Nat.lt_succ_self _), h.nested, fun q hq p hp => ?_⟩
      rw [← Option.some.inj hq]
      exact h.stack p hp
  | close =>
      have hstack := h.stack
      have hnested := h.nested
      rw [show σ.step .close = σ.close from rfl]
      cases hs : σ.parentStack with
      | nil =>
          rw [close_nil hs]
          exact ⟨hstack, hnested, fun q hq => by cases hq⟩
      | cons top stack =>
          rw [hs, List.pairwise_cons] at hnested
          rw [hs] at hstack
          rw [close_cons hs]
          refine ⟨fun p hp => hstack p (List.mem_cons_of_mem _ hp), hnested.2, fun q hq p hp => ?_⟩
          rw [← Option.some.inj hq]
          exact hnested.1 p hp

/-- A reader without an open clade. -/
theorem upright_of_stack {σ : Reader} (h : σ.parentStack = []) : σ.Upright := by
  constructor <;> simp [h]

/-- Only the clade that is open counts. -/
theorem Upright.dangles_iff {σ : Reader} (h : σ.Upright) : σ.dangles = false ↔
    ∀ edge ∈ σ.parentStack.head?.toList.map (·, σ.size), moved σ.reserved edge.2 ≤ edge.1 := by
  have hsibling := h.sibling
  unfold dangles
  cases hs : σ.parentStack with
  | nil => simp
  | cons parent stack =>
      rw [hs] at hsibling
      cases hb : σ.sibling with
      | none => simp
      | some b =>
          have hlt := hsibling b hb parent (List.mem_cons_self ..)
          simp only [Option.any_some, Bool.or_eq_false_iff, decide_eq_false_iff_not, not_lt, List.head?_cons,
            Option.toList_some, List.map_cons, List.map_nil, List.mem_singleton, forall_eq]
          exact ⟨And.left, fun hle => ⟨hle, hle.trans hlt.le⟩⟩

/-- What was reserved stays. -/
theorem reserved_step (σ : Reader) (e : Event) : (σ.step e).reserved = σ.reserved := by
  cases e with
  | clade => rfl
  | terminal x => rfl
  | close =>
      simp only [step, close]
      cases σ.parentStack <;> rfl

/-- What was reserved stays. -/
theorem reserved_steps (σ : Reader) (es : List Event) : (σ.steps es).reserved = σ.reserved := by
  induction es generalizing σ with
  | nil => rfl
  | cons e es ih => rw [steps_cons, ih, reserved_step]

/-- Closing a clade makes no node. -/
theorem size_close (σ : Reader) : σ.close.size = σ.size := by
  unfold close
  cases σ.parentStack <;> rfl

/-- Closing a clade takes it from the stack. -/
theorem parentStack_close (σ : Reader) : σ.close.parentStack = σ.parentStack.tail := by
  cases hs : σ.parentStack with
  | nil =>
      rw [close_nil hs]
      exact hs
  | cons top stack => rw [close_cons hs, List.tail_cons]

/-- The nodes of a tree. -/
theorem size_steps (σ : Reader) (es : List Event) : (σ.steps es).size = σ.size + nodeCount es := by
  induction es generalizing σ with
  | nil => rfl
  | cons e es ih =>
      rw [steps_cons, ih]
      cases e with
      | clade =>
          rw [nodeCount, nodeCount, List.countP_cons_of_pos (by simp)]
          exact Nat.add_right_comm ..
      | terminal x =>
          rw [nodeCount, nodeCount, List.countP_cons_of_pos (by simp)]
          exact Nat.add_right_comm ..
      | close => rw [nodeCount, nodeCount, List.countP_cons_of_neg (by simp), step, size_close]

/-- **The events of a tree are safe** if and only if no node is put into a clade from
before the last move of the vector. -/
theorem Upright.safe_iff {σ : Reader} (h : σ.Upright) (es : List Event) :
    σ.safe es = true ↔ ∀ edge ∈ attached σ.size σ.parentStack es, moved σ.reserved edge.2 ≤ edge.1 := by
  induction es generalizing σ with
  | nil => simp [safe, attached]
  | cons e es ih =>
      have ih := ih (h.step e)
      rw [reserved_step] at ih
      rw [safe, Bool.and_eq_true, ih]
      cases e with
      | clade =>
          simp only [reduceCtorEq, decide_false, Bool.false_or, Bool.not_eq_true', h.dangles_iff, attached,
            List.forall_mem_append]
          rfl
      | terminal x =>
          simp only [reduceCtorEq, decide_false, Bool.false_or, Bool.not_eq_true', h.dangles_iff, attached,
            List.forall_mem_append]
          rfl
      | close =>
          simp only [decide_true, Bool.true_or, true_and, attached, show σ.step .close = σ.close from rfl, size_close,
            parentStack_close]

/-- **The events of some trees are safe** if and only if no node is put into a clade
from before the last move of the vector. -/
theorem safeTrees_iff {σ : Reader} (h : σ.parentStack = []) (ess : List (List Event)) :
    σ.safeTrees ess = true ↔ ∀ edge ∈ attachedTrees σ.size ess, moved σ.reserved edge.2 ≤ edge.1 := by
  induction ess generalizing σ with
  | nil => simp [safeTrees, attachedTrees]
  | cons es ess ih =>
      have hupright : Upright { σ with currentRoot := none } := upright_of_stack h
      have hsafe := hupright.safe_iff es
      have hstack : (σ.tree es).parentStack = [] := rfl
      replace ih := ih hstack
      rw [show (σ.tree es).size = σ.size + nodeCount es from size_steps { σ with currentRoot := none } es,
        show (σ.tree es).reserved = σ.reserved from reserved_steps { σ with currentRoot := none } es] at ih
      rw [safeTrees, Bool.and_eq_true, ih, hsafe, attachedTrees, List.forall_mem_append, h]

/-! ### The state does not depend on what was reserved -/

/-- The reader with another capacity. -/
def reserve (σ : Reader) (reserved : ℕ) : Reader := { σ with reserved := reserved }

/-- An event does the same whatever was reserved. -/
theorem step_reserve (σ : Reader) (reserved : ℕ) (e : Event) :
    (σ.reserve reserved).step e = (σ.step e).reserve reserved := by
  cases e with
  | clade => rfl
  | terminal x => rfl
  | close =>
      simp only [step, close, reserve]
      cases σ.parentStack <;> rfl

/-- Events do the same whatever was reserved. -/
theorem steps_reserve (σ : Reader) (reserved : ℕ) (es : List Event) :
    (σ.reserve reserved).steps es = (σ.steps es).reserve reserved := by
  induction es generalizing σ with
  | nil => rfl
  | cons e es ih => rw [steps_cons, steps_cons, step_reserve, ih]

/-- **Trees are built the same way whatever was reserved.** -/
theorem trees_reserve (σ : Reader) (reserved : ℕ) (ess : List (List Event)) :
    (σ.reserve reserved).trees ess = (σ.trees ess).reserve reserved := by
  induction ess generalizing σ with
  | nil => rfl
  | cons es ess ih =>
      have htree : (σ.reserve reserved).tree es = (σ.tree es).reserve reserved :=
        congrArg finish (steps_reserve { σ with currentRoot := none } reserved es)
      exact (congrArg (trees · ess) htree).trans (ih (σ.tree es))

end Reader
end Graph
end Maf
