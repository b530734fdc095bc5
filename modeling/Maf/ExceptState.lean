/-
# Programs with a state and exceptions

`Ends E P f Q` says that the program `f`, from a state of `P`, ends with a result and a
state of `Q`, unless it throws one of the exceptions `E`.  With no exception in `E` this is
total correctness; with all but one it says that this one is never thrown.
-/

import Mathlib.Tactic.Common

namespace ExceptState

variable {σ ε α β : Type}

/-- **From `P` the program ends with `Q`**, or throws an exception of `E`. -/
def Ends (E : ε → Prop) (P : σ → Prop) (f : StateT σ (Except ε) α) (Q : α → σ → Prop) : Prop :=
  ∀ s, P s →
    match f s with
    | .ok (a, s') => Q a s'
    | .error e => E e

namespace Ends

variable {E : ε → Prop} {P P' : σ → Prop} {Q Q' : α → σ → Prop} {R : β → σ → Prop}

/-- What it says of a run. -/
theorem ok {f : StateT σ (Except ε) α} (h : Ends E P f Q) {s s' : σ} {a : α} (hs : P s) (hf : f s = .ok (a, s')) :
    Q a s' := by
  have := h s hs
  rwa [hf] at this

/-- A run that fails has one of the failures. -/
theorem error {f : StateT σ (Except ε) α} (h : Ends E P f Q) {s : σ} {e : ε} (hs : P s) (hf : f s = .error e) :
    E e := by
  have := h s hs
  rwa [hf] at this

/-- Without exceptions there is a result. -/
theorem exists_ok {f : StateT σ (Except ε) α} (h : Ends (fun _ => False) P f Q) {s : σ} (hs : P s) :
    ∃ a s', f s = .ok (a, s') ∧ Q a s' := by
  have hrun := h s hs
  split at hrun
  · rename_i a s' hf
    exact ⟨a, s', hf, hrun⟩
  · exact hrun.elim

/-- A value. -/
theorem pure {a : α} (h : ∀ s, P s → Q a s) : Ends E P (Pure.pure a) Q := h

/-- A failure that is allowed. -/
theorem throw {e : ε} (h : E e) : Ends E P (throw e : StateT σ (Except ε) α) Q := fun _ _ => h

/-- Looking at the state. -/
theorem get {Q : σ → σ → Prop} (h : ∀ s, P s → Q s s) : Ends E P (get : StateT σ (Except ε) σ) Q := h

/-- Changing the state. -/
theorem modify {f : σ → σ} {Q : PUnit → σ → Prop} (h : ∀ s, P s → Q ⟨⟩ (f s)) :
    Ends E P (modify f : StateT σ (Except ε) PUnit) Q := h

/-- Two parts after each other. -/
theorem bind {f : StateT σ (Except ε) β} {g : β → StateT σ (Except ε) α} (hf : Ends E P f R)
    (hg : ∀ b, Ends E (R b) (g b) Q) : Ends E P (f >>= g) Q := by
  intro s hs
  change match (f s).bind fun r => g r.1 r.2 with
    | .ok (a, s') => Q a s'
    | .error e => E e
  have hrun := hf s hs
  cases hfs : f s with
  | error e =>
      rw [hfs] at hrun
      exact hrun
  | ok r =>
      rw [hfs] at hrun
      exact hg r.1 r.2 hrun

/-- The state is read. -/
theorem get_bind {g : σ → StateT σ (Except ε) α} (h : ∀ s, P s → Ends E (· = s) (g s) Q) :
    Ends E P (MonadState.get >>= g) Q := fun s hs => h s hs s rfl

/-- A stronger precondition and a weaker postcondition may be put in place. -/
theorem conseq {f : StateT σ (Except ε) α} (h : Ends E P f Q) (hP : ∀ s, P' s → P s)
    (hQ : ∀ a s, Q a s → Q' a s) : Ends E P' f Q' := by
  intro s hs
  have hrun := h s (hP s hs)
  split at hrun
  · exact hQ _ _ hrun
  · exact hrun

/-- A branch, each side under its condition. -/
theorem ite {c : Prop} [Decidable c] {f g : StateT σ (Except ε) α} (hf : c → Ends E P f Q)
    (hg : ¬c → Ends E P g Q) : Ends E P (if c then f else g) Q := by
  split_ifs with hc
  · exact hf hc
  · exact hg hc

/-- A fact about the start. -/
theorem and_pre {p : Prop} {f : StateT σ (Except ε) α} (h : p → Ends E P f Q) : Ends E (fun s => P s ∧ p) f Q :=
  fun s hs => h hs.2 s hs.1

/-- A precondition that holds of some parameter. -/
theorem exists_pre {ι : Sort*} {P : ι → σ → Prop} {f : StateT σ (Except ε) α} (h : ∀ i, Ends E (P i) f Q) :
    Ends E (fun s => ∃ i, P i s) f Q := fun s ⟨i, hs⟩ => h i s hs

end Ends

/-- **The program ends as it began**, in a state of `P`, and its result has `p`. -/
def Finds (P : σ → Prop) (f : StateT σ (Except ε) α) (p : α → Prop) : Prop :=
  Ends (fun _ => False) P f fun a s => P s ∧ p a

namespace Finds

variable {P : σ → Prop} {Q : α → σ → Prop} {p p' : α → Prop} {q : β → Prop}

/-- A value is found where the state is left alone. -/
theorem pure {a : α} (h : p a) : Finds P (Pure.pure a : StateT σ (Except ε) α) p := Ends.pure fun _ hs => ⟨hs, h⟩

/-- What is found is used. -/
theorem bind {f : StateT σ (Except ε) β} {g : β → StateT σ (Except ε) α} (hf : Finds P f q)
    (hg : ∀ b, q b → Ends (fun _ => False) P (g b) Q) : Ends (fun _ => False) P (f >>= g) Q :=
  Ends.bind hf fun b => Ends.and_pre (hg b)

/-- What is found may be said more weakly. -/
theorem imp {f : StateT σ (Except ε) α} (h : Finds P f p) (hp : ∀ a, p a → p' a) : Finds P f p' :=
  Ends.conseq h (fun _ hs => hs) fun _ _ hs => ⟨hs.1, hp _ hs.2⟩

/-- A program that ends as it began in every single state of `P`. -/
theorem of_eq {f : StateT σ (Except ε) α} (h : ∀ s, P s → Finds (· = s) f p) : Finds P f p := by
  intro s hs
  have hrun := h s hs s rfl
  split at hrun
  · exact ⟨hrun.1 ▸ hs, hrun.2⟩
  · exact hrun

end Finds

end ExceptState
