/-
# Scans with a cap

A loop goes through items and tests each; a hit acts on the state and is counted,
and the loop is left early once the counter reaches a cap.  Which item comes next
may depend on the hits so far, so the loop runs on a cursor.

`run_rule` is the invariant rule: a scan either changes nothing, and then no item it
passed was a hit, or the last hit has left its mark on the state.  The items of nested
loops are `pairs` and `triples`, those of loops with a step are `twos`, `threes` and
`fours`.
-/

import Mathlib.Data.Int.Order.Basic
import Mathlib.Data.List.Forall2
import Mathlib.Data.List.Pairwise

namespace Scan

variable {κ ι σ : Type*}

/-- **A scan.**  `next` gives the item at the cursor and the cursors after a hit and
a miss.  The result `none` for the counter is the early exit, `none` for the whole
scan is an exception. -/
def run (next : κ → Option (ι × (Bool → κ))) (test : ι → Option Bool) (act : ι → σ → Option σ) (cap : ℤ) :
    ℕ → κ → ℤ → σ → Option (Option ℤ × σ)
  | 0, _, n, s => some (some n, s)
  | fuel + 1, c, n, s =>
      match next c with
      | none => some (some n, s)
      | some (a, go) => (test a).bind fun hit =>
          if hit then
            (act a s).bind fun s' =>
              if cap ≤ n + 1 then some (none, s') else run next test act cap fuel (go true) (n + 1) s'
          else run next test act cap fuel (go false) n s

/-- The items a scan without hits passes. -/
def passed (next : κ → Option (ι × (Bool → κ))) : ℕ → κ → List ι
  | 0, _ => []
  | fuel + 1, c =>
      match next c with
      | none => []
      | some (a, go) => a :: passed next fuel (go false)

/-- The cursor of a loop over a list. -/
def onList : List ι → Option (ι × (Bool → List ι))
  | [] => none
  | a :: l => some (a, fun _ => l)

/-- A scan of a list. -/
def list (test : ι → Option Bool) (act : ι → σ → Option σ) (cap : ℤ) (l : List ι) (n : ℤ) (s : σ) :
    Option (Option ℤ × σ) :=
  run onList test act cap l.length l n s

/-- A scan without hits passes the whole list. -/
theorem passed_onList (l : List ι) : passed onList l.length l = l := by
  induction l with
  | nil => rfl
  | cons a l ih => exact congrArg (a :: ·) ih

variable {next : κ → Option (ι × (Bool → κ))} {test : ι → Option Bool} {act : ι → σ → Option σ} {cap : ℤ}

/-- **The invariant rule.**  `P` is kept by every hit and `Q` holds after it. -/
theorem run_rule (cap : ℤ) {K : κ → Prop} {I : ι → Prop} {P Q : σ → Prop}
    (hnext : ∀ c a go, K c → next c = some (a, go) → I a ∧ ∀ hit, K (go hit))
    (htest : ∀ a, I a → ∃ b, test a = some b)
    (hact : ∀ a s, I a → test a = some true → P s → ∃ s', act a s = some s' ∧ P s' ∧ Q s')
    (fuel : ℕ) {c : κ} {n : ℤ} {s : σ} (hc : K c) (hs : P s) :
    ∃ r s', run next test act cap fuel c n s = some (r, s') ∧ P s' ∧
      (r = some n ∧ s' = s ∧ (∀ a ∈ passed next fuel c, test a = some false) ∨
        Q s' ∧ ∀ m, r = some m → n < m) := by
  induction fuel generalizing c n s with
  | zero => exact ⟨_, s, rfl, hs, Or.inl ⟨rfl, rfl, by simp [passed]⟩⟩
  | succ fuel ih =>
      simp only [run, passed]
      cases hcn : next c with
      | none => exact ⟨_, s, rfl, hs, Or.inl ⟨rfl, rfl, by simp⟩⟩
      | some p =>
          obtain ⟨a, go⟩ := p
          obtain ⟨hIa, hK⟩ := hnext c a go hc hcn
          obtain ⟨b, hb⟩ := htest a hIa
          simp only [hb, Option.bind_some]
          cases b with
          | false =>
              obtain ⟨r, s', hr, hP, h⟩ := ih (n := n) (hK false) hs
              refine ⟨r, s', by simpa using hr, hP, h.imp_left fun ⟨h₁, h₂, h₃⟩ => ⟨h₁, h₂, ?_⟩⟩
              intro x hx
              rcases List.mem_cons.1 hx with rfl | hx
              · exact hb
              · exact h₃ x hx
          | true =>
              obtain ⟨s₁, hs₁, hP₁, hQ₁⟩ := hact a s hIa hb hs
              simp only [hs₁, Option.bind_some, if_true]
              by_cases hcap : cap ≤ n + 1
              · exact ⟨none, s₁, by rw [if_pos hcap], hP₁, Or.inr ⟨hQ₁, fun m hm => by cases hm⟩⟩
              · obtain ⟨r, s', hr, hP, h⟩ := ih (n := n + 1) (hK true) hP₁
                refine ⟨r, s', by rw [if_neg hcap]; exact hr, hP, Or.inr ?_⟩
                rcases h with ⟨rfl, rfl, -⟩ | ⟨hQ, hlt⟩
                · refine ⟨hQ₁, fun m hm => ?_⟩
                  have := Option.some.inj hm
                  omega
                · refine ⟨hQ, fun m hm => ?_⟩
                  have := hlt m hm
                  omega

/-- The invariant rule for lists. -/
theorem list_rule {P Q : σ → Prop} {l : List ι} (htest : ∀ a ∈ l, ∃ b, test a = some b)
    (hact : ∀ a s, a ∈ l → test a = some true → P s → ∃ s', act a s = some s' ∧ P s' ∧ Q s')
    {n : ℤ} {s : σ} (hs : P s) :
    ∃ r s', list test act cap l n s = some (r, s') ∧ P s' ∧
      (r = some n ∧ s' = s ∧ (∀ a ∈ l, test a = some false) ∨ Q s' ∧ ∀ m, r = some m → n < m) := by
  have hnext : ∀ c (a : ι) go, c ⊆ l → onList c = some (a, go) → a ∈ l ∧ ∀ hit : Bool, go hit ⊆ l := by
    intro c a go hc hnext
    cases c with
    | nil => cases hnext
    | cons b c =>
        obtain ⟨rfl, rfl⟩ := Prod.mk.inj (Option.some.inj hnext)
        exact ⟨hc (List.mem_cons_self ..), fun _ _ hx => hc (List.mem_cons_of_mem _ hx)⟩
  have h := run_rule cap (K := fun c => c ⊆ l) (n := n) hnext htest hact l.length (List.Subset.refl l) hs
  rwa [passed_onList] at h

/-- An inner loop that skips blocked indices, for at most that many `rounds`. -/
def skip (blocked : ℕ → Bool) : ℕ → ℕ → ℕ
  | 0, i => i
  | rounds + 1, i => if blocked i then skip blocked rounds (i + 1) else i

/-- Skipping goes forwards. -/
theorem le_skip (blocked : ℕ → Bool) (rounds i : ℕ) : i ≤ skip blocked rounds i := by
  induction rounds generalizing i with
  | zero => exact Nat.le_refl i
  | succ rounds ih =>
      unfold skip
      split_ifs
      · exact Nat.le_of_succ_le (ih (i + 1))
      · exact Nat.le_refl i

/-- A loop that stops early stops at an index that is not blocked. -/
theorem not_blocked_skip {blocked : ℕ → Bool} {rounds i : ℕ} (h : skip blocked rounds i < i + rounds) :
    blocked (skip blocked rounds i) = false := by
  induction rounds generalizing i with
  | zero => exact absurd h (by simp [skip])
  | succ rounds ih =>
      unfold skip at h ⊢
      split_ifs at h ⊢ with hb
      · exact ih (by omega)
      · simpa using hb

/-- **A loop of tests** that ends with the first one that fails. -/
theorem allM_spec {α : Type} {l : List α} {f : α → Option Bool} {P : α → Prop}
    (h : ∀ a ∈ l, ∃ b, f a = some b ∧ (b = true ↔ P a)) :
    ∃ b, l.allM f = some b ∧ (b = true ↔ ∀ a ∈ l, P a) := by
  induction l with
  | nil => exact ⟨true, rfl, by simp⟩
  | cons a l ih =>
      rw [List.forall_mem_cons] at h
      obtain ⟨b, hb, hbP⟩ := h.1
      obtain ⟨c, hc, hcP⟩ := ih h.2
      cases b with
      | true => exact ⟨c, by rw [List.allM, hb]; exact hc, by rw [List.forall_mem_cons, hcP]; simp [← hbP]⟩
      | false => exact ⟨false, by rw [List.allM, hb]; rfl, by simp [← hbP]⟩

/-- A loop that collects a value of each item. -/
theorem mapM_eq_some_iff {α β : Type} {f : α → Option β} {l : List α} {l' : List β} :
    l.mapM f = some l' ↔ List.Forall₂ (fun a b => f a = some b) l l' := by
  induction l generalizing l' with
  | nil => simp [eq_comm]
  | cons a l ih =>
      simp only [List.mapM_cons, Option.bind_eq_bind, Option.bind_eq_some_iff, List.forall₂_cons_left_iff]
      constructor
      · rintro ⟨b, hb, bs, hbs, h⟩
        exact ⟨b, bs, hb, ih.1 hbs, (Option.some.inj h).symm⟩
      · rintro ⟨b, bs, hb, hbs, rfl⟩
        exact ⟨b, hb, bs, ih.2 hbs, rfl⟩

/-- A map of results that all succeed. -/
theorem mapM_eq_some {α β : Type} {l : List α} {f : α → Option β} {g : α → β} (h : ∀ a ∈ l, f a = some (g a)) :
    l.mapM f = some (l.map g) := by
  rw [mapM_eq_some_iff, List.forall₂_map_right_iff, List.forall₂_same]
  exact h

/-- A map succeeds when all of its parts do. -/
theorem exists_mapM {α β : Type} {f : α → Option β} {l : List α} (h : ∀ a ∈ l, ∃ b, f a = some b) :
    ∃ l', l.mapM f = some l' := by
  induction l with
  | nil => exact ⟨[], rfl⟩
  | cons a l ih =>
      rw [List.forall_mem_cons] at h
      obtain ⟨b, hb⟩ := h.1
      obtain ⟨bs, hbs⟩ := ih h.2
      exact ⟨b :: bs, mapM_eq_some_iff.2 (.cons hb (mapM_eq_some_iff.1 hbs))⟩

/-- Two lists in step have their items in step. -/
theorem forall₂_mem {α β : Type} {R : α → β → Prop} {l : List α} {l' : List β} (h : List.Forall₂ R l l') :
    (∀ a ∈ l, ∃ b ∈ l', R a b) ∧ ∀ b ∈ l', ∃ a ∈ l, R a b := by
  induction h with
  | nil => exact ⟨fun a ha => absurd ha List.not_mem_nil, fun b hb => absurd hb List.not_mem_nil⟩
  | cons hab _ ih =>
      rw [List.forall_mem_cons, List.forall_mem_cons]
      refine ⟨⟨⟨_, List.mem_cons_self .., hab⟩, fun a ha => ?_⟩, ⟨_, List.mem_cons_self .., hab⟩, fun b hb => ?_⟩
      · obtain ⟨b, hb, h⟩ := ih.1 a ha
        exact ⟨b, List.mem_cons_of_mem _ hb, h⟩
      · obtain ⟨a, ha, h⟩ := ih.2 b hb
        exact ⟨a, List.mem_cons_of_mem _ ha, h⟩

/-- Three lists in step. -/
theorem forall₂_trans {α β γ : Type} {R : α → β → Prop} {S : β → γ → Prop} {T : α → γ → Prop}
    (hRS : ∀ a b c, R a b → S b c → T a c) {l : List α} {l' : List β} {l'' : List γ} (h : List.Forall₂ R l l')
    (h' : List.Forall₂ S l' l'') : List.Forall₂ T l l'' := by
  induction h generalizing l'' with
  | nil =>
      cases h'
      exact List.Forall₂.nil
  | cons hab _ ih =>
      obtain ⟨c, l'', hbc, hl, rfl⟩ := List.forall₂_cons_left_iff.1 h'
      exact List.Forall₂.cons (hRS _ _ _ hab hbc) (ih hl)

/-- The items and their values. -/
theorem mapM_mem {α β : Type} {f : α → Option β} {l : List α} {l' : List β} (h : l.mapM f = some l') :
    (∀ a ∈ l, ∃ b ∈ l', f a = some b) ∧ ∀ b ∈ l', ∃ a ∈ l, f a = some b :=
  forall₂_mem (mapM_eq_some_iff.1 h)

/-- Values that keep a field of their items. -/
theorem map_mapM {α β γ : Type} {f : α → Option β} {g : α → γ} {g' : β → γ} (hg : ∀ a b, f a = some b → g' b = g a)
    {l : List α} {l' : List β} (h : l.mapM f = some l') : l'.map g' = l.map g := by
  replace h := mapM_eq_some_iff.1 h
  induction h with
  | nil => rfl
  | cons hab _ ih => rw [List.map_cons, List.map_cons, hg _ _ hab, ih]

section Loops

/-- The items of a loop over `i < j`. -/
def pairs : List ι → List (ι × ι)
  | [] => []
  | a :: l => l.map (a, ·) ++ pairs l

/-- The items of a loop over `i < j < k`. -/
def triples : List ι → List (ι × ι × ι)
  | [] => []
  | a :: l => (pairs l).map (a, ·) ++ triples l

/-- The items of a loop in steps of two. -/
def twos : List ι → List (ι × ι)
  | a :: b :: l => (a, b) :: twos l
  | _ => []

/-- The items of a loop in steps of three. -/
def threes : List ι → List (ι × ι × ι)
  | a :: b :: c :: l => (a, b, c) :: threes l
  | _ => []

/-- The items of a loop in steps of four. -/
def fours : List ι → List (ι × ι × ι × ι)
  | a :: b :: c :: d :: l => (a, b, c, d) :: fours l
  | _ => []

variable {l : List ι} {a b c d : ι}

/-- A pair comes in the order of the list. -/
theorem sublist_of_mem_pairs (h : (a, b) ∈ pairs l) : [a, b].Sublist l := by
  induction l with
  | nil => cases h
  | cons x l ih =>
      rcases List.mem_append.1 h with h | h
      · obtain ⟨y, hy, heq⟩ := List.mem_map.1 h
        obtain ⟨rfl, rfl⟩ := Prod.mk.inj heq
        exact (List.singleton_sublist.2 hy).cons_cons x
      · exact (ih h).cons x

/-- A triple comes in the order of the list. -/
theorem sublist_of_mem_triples (h : (a, b, c) ∈ triples l) : [a, b, c].Sublist l := by
  induction l with
  | nil => cases h
  | cons x l ih =>
      rcases List.mem_append.1 h with h | h
      · obtain ⟨⟨y, z⟩, hyz, heq⟩ := List.mem_map.1 h
        obtain ⟨rfl, rfl, rfl⟩ : x = a ∧ y = b ∧ z = c := by simpa using heq
        exact (sublist_of_mem_pairs hyz).cons_cons x
      · exact (ih h).cons x

/-- Two neighbours come in the order of the list. -/
theorem sublist_of_mem_twos : ∀ {l : List ι}, (a, b) ∈ twos l → [a, b].Sublist l
  | [], h | [_], h => by cases h
  | x :: y :: l, h => by
      rcases List.mem_cons.1 h with h | h
      · obtain ⟨rfl, rfl⟩ := Prod.mk.inj h
        exact ((List.nil_sublist l).cons_cons _).cons_cons _
      · exact ((sublist_of_mem_twos h).cons y).cons x

/-- Three neighbours come in the order of the list. -/
theorem sublist_of_mem_threes : ∀ {l : List ι}, (a, b, c) ∈ threes l → [a, b, c].Sublist l
  | [], h | [_], h | [_, _], h => by cases h
  | x :: y :: z :: l, h => by
      rcases List.mem_cons.1 h with h | h
      · obtain ⟨rfl, rfl, rfl⟩ : a = x ∧ b = y ∧ c = z := by simpa using h
        exact (((List.nil_sublist l).cons_cons _).cons_cons _).cons_cons _
      · exact (((sublist_of_mem_threes h).cons z).cons y).cons x

/-- Four neighbours come in the order of the list. -/
theorem sublist_of_mem_fours : ∀ {l : List ι}, (a, b, c, d) ∈ fours l → [a, b, c, d].Sublist l
  | [], h | [_], h | [_, _], h | [_, _, _], h => by cases h
  | x :: y :: z :: w :: l, h => by
      rcases List.mem_cons.1 h with h | h
      · obtain ⟨rfl, rfl, rfl, rfl⟩ : a = x ∧ b = y ∧ c = z ∧ d = w := by simpa using h
        exact ((((List.nil_sublist l).cons_cons _).cons_cons _).cons_cons _).cons_cons _
      · exact ((((sublist_of_mem_fours h).cons w).cons z).cons y).cons x

/-- What holds of all pairs holds pairwise. -/
theorem forall_pairs {R : ι → ι → Prop} (h : ∀ a b, (a, b) ∈ pairs l → R a b) : l.Pairwise R := by
  induction l with
  | nil => exact List.Pairwise.nil
  | cons x l ih =>
      refine List.pairwise_cons.2 ⟨fun y hy => h x y ?_, ih fun a b hab => h a b ?_⟩
      · exact List.mem_append_left _ (List.mem_map_of_mem hy)
      · exact List.mem_append_right _ hab

/-- A loop over `i < j < k` meets any three items, in some order. -/
theorem forall_triples {R : ι → ι → ι → Prop} (h₁ : ∀ {x y z}, R x y z → R y x z)
    (h₂ : ∀ {x y z}, R x y z → R x z y) (h : ∀ a b c, (a, b, c) ∈ triples l → R a b c)
    (ha : a ∈ l) (hb : b ∈ l) (hc : c ∈ l) (hab : a ≠ b) (hac : a ≠ c) (hbc : b ≠ c) : R a b c := by
  induction l with
  | nil => cases ha
  | cons x l ih =>
      have hrest := fun a b c h' => h a b c (List.mem_append_right _ h')
      -- the first item with two others
      have first : ∀ {y z}, y ∈ l → z ∈ l → y ≠ z → R x y z := by
        intro y z hy hz hyz
        have hp : l.Pairwise (R x) := forall_pairs fun y z hyz =>
          h x y z (List.mem_append_left _ (List.mem_map_of_mem hyz))
        have : Std.Symm (R x) := ⟨fun _ _ => h₂⟩
        exact hp.forall hy hz hyz
      rcases List.mem_cons.1 ha with rfl | ha'
      · exact first ((List.mem_cons.1 hb).resolve_left hab.symm) ((List.mem_cons.1 hc).resolve_left hac.symm) hbc
      rcases List.mem_cons.1 hb with rfl | hb'
      · exact h₁ (first ha' ((List.mem_cons.1 hc).resolve_left hbc.symm) hac)
      rcases List.mem_cons.1 hc with rfl | hc'
      · exact h₂ (h₁ (first ha' hb' hab))
      · exact ih hrest ha' hb' hc'

end Loops

end Scan
