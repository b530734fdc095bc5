/-
# Walking up parent links

A rooted forest may be given by a parent function `par`, with `none` at the
roots.  This file has the loops that walk along it and what they compute: the
root above a node (`rootOf`), the lowest common ancestor by walking up in step
(`lca`), and the number of marked nodes below every node by one sweep from the
highest index down (`sweep`).  Loops that a program writes with `while` take
fuel here; a forest of finite height (`Grounded`) needs no more than its height.
-/

import Mathlib.Algebra.BigOperators.Group.Finset.Basic
import Mathlib.Algebra.BigOperators.Intervals
import Mathlib.Logic.Relation
import Mathlib.Tactic

namespace Maf
namespace ParentWalk

variable {ν : Type*} (par : ν → Option ν)

/-- `q` is reached from `p` by parent links. -/
abbrev Anc : ν → ν → Prop := Relation.ReflTransGen fun p q => par p = some q

/-- `ht p` is the number of nodes from `p` up to its root. -/
structure Grounded (ht : ν → ℕ) : Prop where
  root : ∀ p, par p = none → ht p = 1
  step : ∀ p q, par p = some q → ht p = ht q + 1

/-- The number of nodes from `x` up to the root. -/
def depthOf : ℕ → Option ν → ℕ
  | 0, _ => 0
  | _ + 1, none => 0
  | fuel + 1, some p => depthOf fuel (par p) + 1

/-- `k` steps up. -/
def up : ℕ → Option ν → Option ν
  | 0, x => x
  | k + 1, x => up k (x.bind par)

/-- Walks up from both nodes in step until they meet. -/
def meet [DecidableEq ν] : ℕ → Option ν → Option ν → Option ν
  | 0, a, _ => a
  | fuel + 1, a, b => if a = b then a else meet fuel (a.bind par) (b.bind par)

/-- The lowest common ancestor: the deeper node walks up first, then both in
step. -/
def lca [DecidableEq ν] (fuel : ℕ) (a b : ν) : Option ν :=
  let da := depthOf par fuel (some a)
  let db := depthOf par fuel (some b)
  meet par fuel (up par (da - db) (some a)) (up par (db - da) (some b))

/-- The root above a node. -/
def rootOf : ℕ → ν → ν
  | 0, p => p
  | fuel + 1, p =>
      match par p with
      | none => p
      | some q => rootOf fuel q

/-! Ancestors in a grounded forest. -/

variable {par} {ht : ν → ℕ}

/-- A parent function that lowers a rank is grounded. -/
theorem exists_grounded {rank : ν → ℕ} (h : ∀ p q, par p = some q → rank q < rank p) :
    ∃ ht, Grounded par ht ∧ ∀ p, ht p ≤ rank p + 1 := by
  have stable : ∀ fuel fuel' p, rank p < fuel → rank p < fuel' →
      depthOf par fuel (some p) = depthOf par fuel' (some p) := by
    intro fuel
    induction fuel with
    | zero => intro _ _ h; omega
    | succ fuel ih =>
        intro fuel' p hf hf'
        cases fuel' with
        | zero => omega
        | succ fuel' =>
            unfold depthOf
            cases hp : par p with
            | none => cases fuel <;> cases fuel' <;> rfl
            | some q =>
                have := h p q hp
                rw [ih fuel' q (by omega) (by omega)]
  have le : ∀ fuel (x : Option ν), depthOf par fuel x ≤ fuel := by
    intro fuel
    induction fuel with
    | zero => intro x; exact le_rfl
    | succ fuel ih =>
        intro x
        cases x with
        | none => exact Nat.zero_le _
        | some p => exact Nat.succ_le_succ (ih _)
  refine ⟨fun p => depthOf par (rank p + 1) (some p), ⟨fun p hp => ?_, fun p q hpq => ?_⟩,
    fun p => le _ _⟩
  · rw [depthOf, hp]
    cases rank p <;> rfl
  · have hlt := h p q hpq
    rw [depthOf, hpq, stable (rank p) (rank q + 1) q hlt (Nat.lt_succ_self _)]

/-- Every height is positive. -/
theorem Grounded.pos (h : Grounded par ht) (p : ν) : 0 < ht p := by
  cases hp : par p with
  | none => rw [h.root p hp]; exact Nat.one_pos
  | some q => rw [h.step p q hp]; exact Nat.succ_pos _

/-- An ancestor is not higher up than its height says. -/
theorem Grounded.le_of_anc (h : Grounded par ht) {p q : ν} (hpq : Anc par p q) : ht q ≤ ht p := by
  induction hpq using Relation.ReflTransGen.head_induction_on with
  | refl => exact le_rfl
  | head hstep _ ih => rw [h.step _ _ hstep]; omega

/-- Ancestors of the same height are equal. -/
theorem Grounded.eq_of_anc (h : Grounded par ht) {p q : ν} (hpq : Anc par p q) (he : ht p = ht q) :
    p = q := by
  rcases Relation.ReflTransGen.cases_head hpq with rfl | ⟨r, hr, hrq⟩
  · rfl
  · have h₁ := h.step _ _ hr
    have h₂ := h.le_of_anc hrq
    omega

/-- The ancestors of a node above it are those of its parent. -/
theorem anc_of_ne {p q r : ν} (hp : par p = some r) (h : Anc par p q) (hne : p ≠ q) :
    Anc par r q := by
  rcases Relation.ReflTransGen.cases_head h with rfl | ⟨r', hr, hrq⟩
  · exact absurd rfl hne
  · rw [hp, Option.some.injEq] at hr
    exact hr ▸ hrq

/-- Nothing lies above a root. -/
theorem eq_of_anc_root {p q : ν} (hp : par p = none) (h : Anc par p q) : p = q := by
  rcases Relation.ReflTransGen.cases_head h with rfl | ⟨r, hr, -⟩
  · rfl
  · rw [hp] at hr; cases hr

/-- The ancestors of a node form a chain. -/
theorem anc_total {p q r : ν} (hq : Anc par p q) (hr : Anc par p r) :
    Anc par q r ∨ Anc par r q := by
  induction hq using Relation.ReflTransGen.head_induction_on with
  | refl => exact Or.inl hr
  | head hstep _ ih =>
      rcases Relation.ReflTransGen.cases_head hr with rfl | ⟨s, hs, hsr⟩
      · exact Or.inr (Relation.ReflTransGen.head hstep ‹_›)
      · rw [hstep, Option.some.injEq] at hs
        exact ih (hs ▸ hsr)

/-- The depth of a node is its height. -/
theorem depthOf_eq (h : Grounded par ht) : ∀ (fuel : ℕ) (p : ν), ht p ≤ fuel →
    depthOf par fuel (some p) = ht p := by
  intro fuel
  induction fuel with
  | zero => intro p hp; exact absurd (h.pos p) (by omega)
  | succ fuel ih =>
      intro p hp
      unfold depthOf
      cases hq : par p with
      | none => rw [h.root p hq]; cases fuel <;> rfl
      | some q =>
          have := h.step p q hq
          rw [ih q (by omega), this]

/-- **`rootOf` finds the root above a node.** -/
theorem rootOf_spec (h : Grounded par ht) : ∀ (fuel : ℕ) (p : ν), ht p ≤ fuel →
    Anc par p (rootOf par fuel p) ∧ par (rootOf par fuel p) = none := by
  intro fuel
  induction fuel with
  | zero => intro p hp; exact absurd (h.pos p) (by omega)
  | succ fuel ih =>
      intro p hp
      unfold rootOf
      cases hq : par p with
      | none => exact ⟨.refl, hq⟩
      | some q =>
          have := h.step p q hq
          obtain ⟨h₁, h₂⟩ := ih q (by omega)
          exact ⟨.head hq h₁, h₂⟩

variable [DecidableEq ν]

/-- What a search for the lowest common ancestor should return. -/
def IsLca (par : ν → Option ν) (a b : ν) : Option ν → Prop
  | some m => Anc par a m ∧ Anc par b m ∧ ∀ q, Anc par a q → Anc par b q → Anc par m q
  | none => ∀ q, Anc par a q → ¬Anc par b q

omit [DecidableEq ν] in
/-- The lowest common ancestor does not depend on the order. -/
theorem IsLca.symm {a b : ν} {x : Option ν} (h : IsLca par a b x) : IsLca par b a x := by
  cases x with
  | none => exact fun q hb ha => h q ha hb
  | some m => exact ⟨h.2.1, h.1, fun q hb ha => h.2.2 q ha hb⟩

omit [DecidableEq ν] in
/-- A search for the lowest common ancestor has one right answer. -/
theorem IsLca.eq (h : Grounded par ht) {a b : ν} {x y : Option ν} (hx : IsLca par a b x) (hy : IsLca par a b y) :
    x = y := by
  cases x with
  | none =>
      cases y with
      | none => rfl
      | some n => exact absurd hy.2.1 (hx n hy.1)
  | some m =>
      cases y with
      | none => exact absurd hx.2.1 (hy m hx.1)
      | some n =>
          have hmn := hx.2.2 n hy.1 hy.2.1
          have hnm := hy.2.2 m hx.1 hx.2.1
          rw [h.eq_of_anc hmn ((h.le_of_anc hnm).antisymm (h.le_of_anc hmn))]

/-- Walking up from two nodes of the same height ends at their lowest common
ancestor. -/
theorem meet_spec (h : Grounded par ht) : ∀ (fuel : ℕ) (a b : ν), ht a = ht b → ht a ≤ fuel →
    IsLca par a b (meet par fuel (some a) (some b)) := by
  intro fuel
  induction fuel with
  | zero => intro a b _ ha; exact absurd (h.pos a) (by omega)
  | succ fuel ih =>
      intro a b hab ha
      unfold meet
      by_cases he : a = b
      · rw [if_pos (congrArg some he)]
        subst he
        exact ⟨.refl, .refl, fun q hq _ => hq⟩
      rw [if_neg fun h => he (Option.some.inj h)]
      -- neither node is an ancestor of the other, so the common ancestors are those of the parents
      have hne : ∀ q, Anc par a q → Anc par b q → a ≠ q ∧ b ≠ q := by
        intro q hq hq'
        refine ⟨fun ha => he ?_, fun hb => he ?_⟩
        · exact (h.eq_of_anc (ha ▸ hq') hab.symm).symm
        · exact h.eq_of_anc (hb ▸ hq) hab
      cases ha' : par a with
      | none =>
          have hb' : par b = none := by
            cases hb' : par b with
            | none => rfl
            | some r =>
                have h₁ := h.root a ha'
                have h₂ := h.step b r hb'
                have h₃ := h.pos r
                omega
          have hnone : meet par fuel ((some a).bind par) ((some b).bind par) = none := by
            simp only [Option.bind_some, ha', hb']
            cases fuel <;> simp [meet]
          rw [hnone]
          exact fun q hq hq' => (hne q hq hq').1 (eq_of_anc_root ha' hq)
      | some a' =>
          cases hb' : par b with
          | none =>
              have h₁ := h.root b hb'
              have h₂ := h.step a a' ha'
              have h₃ := h.pos a'
              omega
          | some b' =>
              have h₁ := h.step a a' ha'
              have h₂ := h.step b b' hb'
              have hrec := ih a' b' (by omega) (by omega)
              simp only [Option.bind_some, ha', hb']
              cases hm : meet par fuel (some a') (some b') with
              | none =>
                  rw [hm] at hrec
                  exact fun q hq hq' => hrec q (anc_of_ne ha' hq (hne q hq hq').1)
                    (anc_of_ne hb' hq' (hne q hq hq').2)
              | some m =>
                  rw [hm] at hrec
                  exact ⟨.head ha' hrec.1, .head hb' hrec.2.1, fun q hq hq' =>
                    hrec.2.2 q (anc_of_ne ha' hq (hne q hq hq').1)
                      (anc_of_ne hb' hq' (hne q hq hq').2)⟩

omit [DecidableEq ν] in
/-- Walking the deeper node up to the height of the other keeps the common
ancestors. -/
theorem up_spec (h : Grounded par ht) : ∀ (k : ℕ) (a b : ν), ht a = ht b + k →
    ∃ a', up par k (some a) = some a' ∧ ht a' = ht b ∧ Anc par a a' ∧
      ∀ q, Anc par a q → Anc par b q → Anc par a' q := by
  intro k
  induction k with
  | zero => intro a b hab; exact ⟨a, rfl, hab, .refl, fun q hq _ => hq⟩
  | succ k ih =>
      intro a b hab
      cases ha : par a with
      | none =>
          have h₁ := h.root a ha
          have h₂ := h.pos b
          omega
      | some c =>
          have h₁ := h.step a c ha
          obtain ⟨a', hup, hht, hanc, hq⟩ := ih c b (by omega)
          refine ⟨a', by simpa [up, ha] using hup, hht, .head ha hanc, fun q hq₁ hq₂ =>
            hq q (anc_of_ne ha hq₁ fun he => ?_) hq₂⟩
          have := h.le_of_anc hq₂
          rw [← he] at this
          omega

/-- **`lca` returns the lowest common ancestor**, and nothing when there is
none. -/
theorem lca_spec (h : Grounded par ht) {fuel : ℕ} {a b : ν} (ha : ht a ≤ fuel) (hb : ht b ≤ fuel) :
    IsLca par a b (lca par fuel a b) := by
  unfold lca
  rw [depthOf_eq h fuel a ha, depthOf_eq h fuel b hb]
  dsimp only
  rcases le_total (ht b) (ht a) with hle | hle
  · obtain ⟨a', hup, hht, hanc, hq⟩ := up_spec h (ht a - ht b) a b (by omega)
    rw [hup, show ht b - ht a = 0 by omega]
    have hm := meet_spec h fuel a' b hht (by omega)
    unfold up
    cases hres : meet par fuel (some a') (some b) with
    | none => rw [hres] at hm; exact fun q hq₁ hq₂ => hm q (hq q hq₁ hq₂) hq₂
    | some m =>
        rw [hres] at hm
        exact ⟨hanc.trans hm.1, hm.2.1, fun q hq₁ hq₂ => hm.2.2 q (hq q hq₁ hq₂) hq₂⟩
  · obtain ⟨b', hup, hht, hanc, hq⟩ := up_spec h (ht b - ht a) b a (by omega)
    rw [hup, show ht a - ht b = 0 by omega]
    have hm := meet_spec h fuel a b' hht.symm ha
    unfold up
    cases hres : meet par fuel (some a) (some b') with
    | none => rw [hres] at hm; exact fun q hq₁ hq₂ => hm q hq₁ (hq q hq₂ hq₁)
    | some m =>
        rw [hres] at hm
        exact ⟨hm.1, hanc.trans hm.2.1, fun q hq₁ hq₂ => hm.2.2 q hq₁ (hq q hq₂ hq₁)⟩

/-! Counting below every node in one sweep. -/

section Sweep

variable {par : ℕ → Option ℕ}

/-- The indices below `k`, from `k - 1` down to `0`, each add their count to that
of their parent. -/
def sweep (par : ℕ → Option ℕ) : ℕ → (ℕ → ℕ) → ℕ → ℕ
  | 0, c => c
  | k + 1, c =>
      sweep par k <|
        match par k with
        | none => c
        | some j => Function.update c j (c j + c k)

/-- The children of `i` among the indices from `k` to `n - 1`. -/
def childrenFrom (par : ℕ → Option ℕ) (k n i : ℕ) : Finset ℕ :=
  (Finset.Ico k n).filter (par · = some i)

/-- **One sweep makes every count the sum over the children.** -/
theorem sweep_eq_add_sum (hpar : ∀ i j, par i = some j → j < i) {n : ℕ} {w : ℕ → ℕ} :
    ∀ (k : ℕ) (c : ℕ → ℕ), k ≤ n → (∀ i, c i = w i + ∑ j ∈ childrenFrom par k n i, c j) →
      ∀ i, sweep par k c i = w i + ∑ j ∈ childrenFrom par 0 n i, sweep par k c j := by
  intro k
  induction k with
  | zero => exact fun c _ hc => hc
  | succ k ih =>
      intro c hk hc
      unfold sweep
      refine ih _ (by omega) fun i => ?_
      have hico : Finset.Ico k n = insert k (Finset.Ico (k + 1) n) :=
        (Finset.insert_Ico_add_one_left_eq_Ico (by omega)).symm
      cases hp : par k with
      | none =>
          have hsame : childrenFrom par k n i = childrenFrom par (k + 1) n i := by
            rw [childrenFrom, childrenFrom, hico, Finset.filter_insert, if_neg (by simp [hp])]
          rw [hsame]
          exact hc i
      | some j =>
          have hjk := hpar k j hp
          dsimp only
          -- the counts from `k` on are final: an index only adds to a smaller one
          have hfinal : ∀ l ∈ childrenFrom par k n i,
              Function.update c j (c j + c k) l = c l := by
            intro l hl
            have hlk : k ≤ l := (Finset.mem_Ico.1 (Finset.mem_filter.1 hl).1).1
            exact Function.update_of_ne (by omega) _ _
          rw [Finset.sum_congr rfl hfinal]
          by_cases hij : i = j
          · subst hij
            have hins : childrenFrom par k n i = insert k (childrenFrom par (k + 1) n i) := by
              rw [childrenFrom, childrenFrom, hico, Finset.filter_insert, if_pos hp]
            have hnot : k ∉ childrenFrom par (k + 1) n i := by simp [childrenFrom]
            rw [Function.update_self, hins, Finset.sum_insert hnot, hc i]
            omega
          · have hsame : childrenFrom par k n i = childrenFrom par (k + 1) n i := by
              rw [childrenFrom, childrenFrom, hico, Finset.filter_insert,
                if_neg (by rw [hp, Option.some.injEq]; exact fun h => hij h.symm)]
            rw [Function.update_of_ne hij, hsame]
            exact hc i

open Classical in
/-- **The sweep counts what lies below every node.** -/
theorem sweep_eq_sum (hpar : ∀ i j, par i = some j → j < i) (n : ℕ) (w : ℕ → ℕ) (i : ℕ)
    (hi : i < n) : sweep par n w i = ∑ j ∈ (Finset.range n).filter (Anc par · i), w j := by
  have hrec := sweep_eq_add_sum hpar (n := n) (w := w) n w le_rfl (by simp [childrenFrom])
  have hle : ∀ {p q}, Anc par p q → q ≤ p := by
    intro p q h
    induction h using Relation.ReflTransGen.head_induction_on with
    | refl => exact le_rfl
    | head hstep _ ih => exact ih.trans (hpar _ _ hstep).le
  induction hm : n - i using Nat.strong_induction_on generalizing i with
  | _ m ih =>
  subst hm
  have hchild : ∀ {j}, j ∈ childrenFrom par 0 n i → i < j ∧ j < n ∧ par j = some i := by
    intro j hj
    obtain ⟨hj, hp⟩ := Finset.mem_filter.1 hj
    exact ⟨hpar j i hp, (Finset.mem_Ico.1 hj).2, hp⟩
  -- below `i` are `i` itself and what is below its children
  have hdecomp : (Finset.range n).filter (Anc par · i) = insert i
      ((childrenFrom par 0 n i).biUnion fun c => (Finset.range n).filter (Anc par · c)) := by
    ext j
    simp only [Finset.mem_filter, Finset.mem_range, Finset.mem_insert, Finset.mem_biUnion]
    constructor
    · rintro ⟨hj, hji⟩
      rcases Relation.ReflTransGen.cases_tail hji with h | ⟨c, hjc, hci⟩
      · exact Or.inl h.symm
      · refine Or.inr ⟨c, Finset.mem_filter.2 ⟨Finset.mem_Ico.2 ⟨Nat.zero_le _, ?_⟩, hci⟩, hj, hjc⟩
        exact (hle hjc).trans_lt hj
    · rintro (rfl | ⟨c, hc, hj, hjc⟩)
      · exact ⟨hi, .refl⟩
      · exact ⟨hj, hjc.tail (hchild hc).2.2⟩
  have hnot : i ∉ (childrenFrom par 0 n i).biUnion
      fun c => (Finset.range n).filter (Anc par · c) := by
    simp only [Finset.mem_biUnion, Finset.mem_filter, not_exists, not_and]
    intro c hc _ hic
    have := hle hic
    have := (hchild hc).1
    omega
  have hdisj : ∀ c ∈ childrenFrom par 0 n i, ∀ d ∈ childrenFrom par 0 n i, c ≠ d →
      Disjoint ((Finset.range n).filter (Anc par · c)) ((Finset.range n).filter (Anc par · d)) := by
    intro c hc d hd hcd
    refine Finset.disjoint_left.2 fun j hj hj' => ?_
    rcases anc_total (Finset.mem_filter.1 hj).2 (Finset.mem_filter.1 hj').2 with h | h
    · have := hle (anc_of_ne (hchild hc).2.2 h hcd)
      have := (hchild hd).1
      omega
    · have := hle (anc_of_ne (hchild hd).2.2 h (Ne.symm hcd))
      have := (hchild hc).1
      omega
  rw [hrec i, hdecomp, Finset.sum_insert hnot, Finset.sum_biUnion hdisj]
  refine congrArg (w i + ·) (Finset.sum_congr rfl fun c hc => ?_)
  obtain ⟨h₁, h₂, -⟩ := hchild hc
  exact ih (n - c) (by omega) c h₂ rfl

end Sweep

end ParentWalk
end Maf
