/-
# Programs that can be left early

Loops over a state with a `return` in the middle: a program either fails, or it
ends in a state with a flag that says whether it was left early.  `Triple` is total
correctness with a relation between the states before and after, such as "what was
written can be undone"; the rules are those of composition and of a loop over a
list, whose invariant speaks of the elements that are still to come.
-/

import Mathlib.Tactic

namespace EarlyExit

/-- A program on the states `σ`; `none` is a failure, and the flag says that the
program was left early. -/
abbrev Prog (σ : Type*) := σ → Option (Bool × σ)

namespace Prog

variable {σ α : Type*}

/-- Does nothing. -/
def skip : Prog σ := fun s => some (false, s)

/-- Leaves the program. -/
def exit : Prog σ := fun s => some (true, s)

/-- One program after the other, unless the first was left. -/
def seq (f g : Prog σ) : Prog σ := fun s =>
  match f s with
  | none => none
  | some (true, s') => some (true, s')
  | some (false, s') => g s'

/-- One program for each element of a list. -/
def forEach (f : α → Prog σ) : List α → Prog σ
  | [] => skip
  | x :: xs => (f x).seq (forEach f xs)

end Prog

open Prog

variable {σ α : Type*}

/-- **From `P` the program does not fail.**  It ends in a state related by `R`, in
which `Q` holds, or `E` when it was left. -/
def Triple (R : σ → σ → Prop) (E P : σ → Prop) (f : Prog σ) (Q : σ → Prop) : Prop :=
  ∀ s, P s → ∃ b s', f s = some (b, s') ∧ R s s' ∧ (b = true → E s') ∧ (b = false → Q s')

namespace Triple

variable {R : σ → σ → Prop} {E P P' Q Q' : σ → Prop} {f g : Prog σ}

/-- A part that does nothing. -/
theorem skip [Std.Refl R] (h : ∀ s, P s → Q s) : Triple R E P Prog.skip Q := fun s hs =>
  ⟨false, s, rfl, Std.Refl.refl s, fun h => absurd h Bool.false_ne_true, fun _ => h s hs⟩

/-- Leaving the program early. -/
theorem exit [Std.Refl R] (h : ∀ s, P s → E s) : Triple R E P Prog.exit Q := fun s hs =>
  ⟨true, s, rfl, Std.Refl.refl s, fun _ => h s hs, fun h => absurd h Bool.noConfusion⟩

/-- A weaker precondition and a stronger postcondition may be put in place. -/
theorem conseq (h : Triple R E P f Q) (hP : ∀ s, P' s → P s) (hQ : ∀ s, Q s → Q' s) :
    Triple R E P' f Q' := fun s hs =>
  let ⟨b, s', hf, hR, hE, h⟩ := h s (hP s hs)
  ⟨b, s', hf, hR, hE, fun hb => hQ s' (h hb)⟩

/-- The program is known at every state of `P`. -/
theorem congr (h : Triple R E P f Q) (heq : ∀ s, P s → g s = f s) : Triple R E P g Q := fun s hs =>
  let ⟨b, s', hf, h⟩ := h s hs
  ⟨b, s', (heq s hs).trans hf, h⟩

/-- A choice made by the state. -/
theorem ite {c : σ → Prop} [DecidablePred c] (hf : Triple R E (fun s => P s ∧ c s) f Q)
    (hg : Triple R E (fun s => P s ∧ ¬c s) g Q) : Triple R E P (fun s => if c s then f s else g s) Q := by
  intro s hs
  dsimp only
  split_ifs with hc
  · exact hf s ⟨hs, hc⟩
  · exact hg s ⟨hs, hc⟩

/-- Two parts after each other. -/
theorem seq [IsTrans σ R] (hf : Triple R E P f Q) (hg : Triple R E Q g Q') : Triple R E P (f.seq g) Q' := by
  intro s hs
  obtain ⟨b, s₁, h₁, hR₁, hE₁, hQ₁⟩ := hf s hs
  cases b with
  | true => exact ⟨true, s₁, by rw [Prog.seq, h₁], hR₁, hE₁, fun h => absurd h Bool.noConfusion⟩
  | false =>
      obtain ⟨b, s₂, h₂, hR₂, hE₂, hQ₂⟩ := hg s₁ (hQ₁ rfl)
      exact ⟨b, s₂, by rw [Prog.seq, h₁]; exact h₂, IsTrans.trans _ _ _ hR₁ hR₂, hE₂, hQ₂⟩

/-- **The rule of the loop.**  `I xs` holds when the elements `xs` are still to
come. -/
theorem forEach [Std.Refl R] [IsTrans σ R] {f : α → Prog σ} {I : List α → σ → Prop}
    (h : ∀ x xs, Triple R E (I (x :: xs)) (f x) (I xs)) (xs : List α) :
    Triple R E (I xs) (Prog.forEach f xs) (I []) := by
  induction xs with
  | nil => exact skip fun _ hs => hs
  | cons x xs ih => exact (h x xs).seq ih

end Triple

end EarlyExit
