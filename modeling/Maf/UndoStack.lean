/-
# Stacks of steps that are undone

A stack of entries, each of which undoes one step, is undone from its top on (`popAll`).  An entry may act
on a single component of a state, such as one of several forests (`undoAt`); the entries of one component
are read off the stack with `entriesAt`.
-/

import Mathlib.Data.List.Indexes
import Mathlib.Tactic.SplitIfs

namespace UndoStack

variable {α β σ : Type*}

/-- The entries are undone from the top of the stack on. -/
def popAll (undo : α → σ → Option σ) : List α → σ → Option σ
  | [], s => some s
  | a :: stack, s => (undo a s).bind (popAll undo stack)

/-- An empty stack undoes nothing. -/
@[simp] theorem popAll_nil (undo : α → σ → Option σ) (s : σ) : popAll undo [] s = some s := rfl

/-- The top of the stack is undone first. -/
@[simp] theorem popAll_cons (undo : α → σ → Option σ) (a : α) (stack : List α) (s : σ) :
    popAll undo (a :: stack) s = (undo a s).bind (popAll undo stack) := rfl

/-- The upper part of a stack is undone before the lower one. -/
theorem popAll_append (undo : α → σ → Option σ) (top stack : List α) (s : σ) :
    popAll undo (top ++ stack) s = (popAll undo top s).bind (popAll undo stack) := by
  induction top generalizing s with
  | nil => rfl
  | cons a top ih =>
      rw [List.cons_append, popAll_cons, popAll_cons]
      cases undo a s with
      | none => rfl
      | some s' => exact ih s'

/-- Entries of another kind. -/
theorem popAll_map (undo : β → σ → Option σ) (f : α → β) (stack : List α) (s : σ) :
    popAll undo (stack.map f) s = popAll (fun a => undo (f a)) stack s := by
  induction stack generalizing s with
  | nil => rfl
  | cons a stack ih =>
      rw [List.map_cons, popAll_cons, popAll_cons]
      exact congrArg _ (funext ih)

/-- An entry is undone in the component that it names. -/
def undoAt (undo : α → σ → Option σ) (e : ℕ × α) (ss : List σ) : Option (List σ) := do
  let s ← ss[e.1]?
  let s' ← undo e.2 s
  some (ss.set e.1 s')

/-- The entries of one component. -/
def entriesAt (i : ℕ) (stack : List (ℕ × α)) : List α := (stack.filter fun e => e.1 = i).map Prod.snd

/-- An empty stack has no entries of a component. -/
@[simp] theorem entriesAt_nil (i : ℕ) : entriesAt i ([] : List (ℕ × α)) = [] := rfl

/-- The entries of a component in two parts of a stack. -/
@[simp] theorem entriesAt_append (i : ℕ) (top stack : List (ℕ × α)) :
    entriesAt i (top ++ stack) = entriesAt i top ++ entriesAt i stack := by
  rw [entriesAt, List.filter_append, List.map_append, entriesAt, entriesAt]

/-- An entry of the component. -/
theorem entriesAt_cons_self (i : ℕ) (a : α) (stack : List (ℕ × α)) :
    entriesAt i ((i, a) :: stack) = a :: entriesAt i stack := by
  rw [entriesAt, List.filter_cons_of_pos (by simp), List.map_cons, entriesAt]

/-- An entry of another component. -/
theorem entriesAt_cons_ne {i j : ℕ} (h : j ≠ i) (a : α) (stack : List (ℕ × α)) :
    entriesAt i ((j, a) :: stack) = entriesAt i stack := by
  rw [entriesAt, List.filter_cons_of_neg (by simpa using h), entriesAt]

end UndoStack
