/-
# The nearest item by a stack

A loop over items keeps a stack of earlier ones; it pops those that the current item
`drops`, notes the one on top, and pushes the item.  If an item drops what is dropped by the
items it drops, nothing popped is ever missed: what is noted is the latest earlier item that
is not dropped (`nearest_getElem?`).  In an array these are the previous smaller and the
next smaller or equal entries (`prevSmaller_spec`, `nextSmaller_spec`).
-/

import Mathlib.Data.List.TakeWhile
import Mathlib.Tactic

namespace NearestSmaller

variable {ι : Type*} (drops : ι → ι → Bool)

/-- **The loop**: what is noted for every item. -/
def nearest : List ι → List ι → List (Option ι)
  | [], _ => []
  | i :: is, st =>
      let st := st.dropWhile (drops i)
      st.head? :: nearest is (i :: st)

variable {drops}

/-- Every element gets an answer. -/
theorem length_nearest (is st : List ι) : (nearest drops is st).length = is.length := by
  induction is generalizing st with
  | nil => rfl
  | cons i is ih => rw [nearest, List.length_cons, ih, List.length_cons]

/-- What is dropped could not be found. -/
theorem find?_dropWhile {p q : ι → Bool} (h : ∀ j, q j = true → p j = false) (st : List ι) :
    (st.dropWhile q).find? p = st.find? p := by
  induction st with
  | nil => rfl
  | cons j st ih =>
      rw [List.dropWhile_cons]
      split_ifs with hq
      · rw [ih, List.find?_cons, h j hq]
      · rfl

/-- **What is noted is the latest earlier item that is not dropped.** -/
theorem nearest_getElem? (htrans : ∀ i j k, drops i j = true → drops j k = true → drops i k = true) (is : List ι)
    {st seen : List ι} (h : ∀ i, st.find? (fun j => !drops i j) = seen.find? fun j => !drops i j) (k : ℕ) :
    (nearest drops is st)[k]? = is[k]?.map fun i => ((is.take k).reverse ++ seen).find? fun j => !drops i j := by
  induction is generalizing st seen k with
  | nil => rfl
  | cons i is ih =>
      rw [nearest]
      cases k with
      | zero =>
          have hhead : (st.dropWhile (drops i)).head? = st.find? fun j => !drops i j :=
            (List.find?_not_eq_head?_dropWhile ..).symm
          simp [hhead, h]
      | succ k =>
          rw [List.getElem?_cons_succ, List.getElem?_cons_succ, List.take_succ_cons, List.reverse_cons,
            List.append_assoc, List.singleton_append]
          refine ih (fun m => ?_) k
          rw [List.find?_cons, List.find?_cons]
          cases hm : drops m i with
          | false => rfl
          | true =>
              simp only [Bool.not_true]
              rw [find?_dropWhile (fun j hj => by simp [htrans m i j hm hj]), h m]

/-- The latest item of a count that passes a test. -/
theorem find?_reverse_range {p : ℕ → Bool} {n : ℕ} :
    ((List.range n).reverse.find? p = none → ∀ j < n, p j = false) ∧
      ∀ j, (List.range n).reverse.find? p = some j → j < n ∧ p j = true ∧ ∀ k, j < k → k < n → p k = false := by
  induction n with
  | zero => simp
  | succ n ih =>
      rw [List.range_succ, List.reverse_append, List.reverse_singleton, List.singleton_append, List.find?_cons]
      cases hn : p n with
      | true =>
          refine ⟨fun h => (Option.some_ne_none n h).elim, fun j h => ?_⟩
          obtain rfl := Option.some.inj h
          exact ⟨Nat.lt_succ_self n, hn, fun k hk hk' => absurd hk (by omega)⟩
      | false =>
          have last : ∀ {k}, k < n + 1 → k = n ∨ k < n := fun hk => by omega
          refine ⟨fun h j hj => ?_, fun j h => ?_⟩
          · rcases last hj with rfl | hj
            · exact hn
            · exact ih.1 h j hj
          · obtain ⟨hj, hpj, hk⟩ := ih.2 j h
            refine ⟨by omega, hpj, fun k hjk hkn => ?_⟩
            rcases last hkn with rfl | hkn
            · exact hn
            · exact hk k hjk hkn

/-- **The previous strictly smaller entry.** -/
theorem prevSmaller_spec (a : ℕ → ℕ) {n i : ℕ} (hi : i < n) :
    ((nearest (fun i j => decide (a i ≤ a j)) (List.range n) []).getD i none = none → ∀ j < i, a i ≤ a j) ∧
      ∀ j, (nearest (fun i j => decide (a i ≤ a j)) (List.range n) []).getD i none = some j →
        j < i ∧ a j < a i ∧ ∀ k, j < k → k < i → a i ≤ a k := by
  have htrans : ∀ i j k, decide (a i ≤ a j) = true → decide (a j ≤ a k) = true → decide (a i ≤ a k) = true :=
    fun i j k h h' => decide_eq_true ((of_decide_eq_true h).trans (of_decide_eq_true h'))
  have hnil : ∀ i, ([] : List ℕ).find? (fun j => !decide (a i ≤ a j)) = [].find? fun j => !decide (a i ≤ a j) :=
    fun _ => rfl
  have hget := nearest_getElem? htrans (List.range n) hnil i
  rw [List.getElem?_range hi, Option.map_some, List.append_nil, List.take_range, min_eq_left hi.le] at hget
  rw [List.getD_eq_getElem?_getD, hget, Option.getD_some]
  obtain ⟨hnone, hsome⟩ := find?_reverse_range (p := fun j => !decide (a i ≤ a j)) (n := i)
  refine ⟨fun h j hj => by simpa using hnone h j hj, fun j h => ?_⟩
  obtain ⟨hj, hpj, hk⟩ := hsome j h
  exact ⟨hj, by simpa using hpj, fun k h₁ h₂ => by simpa using hk k h₁ h₂⟩

/-- **The next smaller or equal entry.** -/
theorem nextSmaller_spec (a : ℕ → ℕ) {n i : ℕ} (hi : i < n) :
    ((nearest (fun i j => decide (a i < a j)) (List.range n).reverse []).reverse.getD i none = none →
        ∀ j, i < j → j < n → a i < a j) ∧
      ∀ j, (nearest (fun i j => decide (a i < a j)) (List.range n).reverse []).reverse.getD i none = some j →
        i < j ∧ j < n ∧ a j ≤ a i ∧ ∀ k, i < k → k < j → a i < a k := by
  have htrans : ∀ i j k, decide (a i < a j) = true → decide (a j < a k) = true → decide (a i < a k) = true :=
    fun i j k h h' => decide_eq_true ((of_decide_eq_true h).trans (of_decide_eq_true h'))
  have hnil : ∀ i, ([] : List ℕ).find? (fun j => !decide (a i < a j)) = [].find? fun j => !decide (a i < a j) :=
    fun _ => rfl
  have hget := nearest_getElem? htrans (List.range n).reverse hnil (n - 1 - i)
  have hlen : (nearest (fun i j => decide (a i < a j)) (List.range n).reverse []).length = n := by
    rw [length_nearest, List.length_reverse, List.length_range]
  have hrest : ((List.range n).reverse.take (n - 1 - i)).reverse = List.range' (i + 1) (n - 1 - i) := by
    rw [List.take_reverse, List.reverse_reverse, List.length_range, List.range_eq_range', List.drop_range']
    congr 1 <;> omega
  rw [List.getElem?_reverse (by rw [List.length_range]; omega), List.length_range, List.append_nil, hrest,
    List.getElem?_range (by omega), Option.map_some, show n - 1 - (n - 1 - i) = i by omega] at hget
  rw [List.getD_eq_getElem?_getD, List.getElem?_reverse (by rwa [hlen]), hlen, hget, Option.getD_some]
  refine ⟨fun h j hij hj => ?_, fun j h => ?_⟩
  · simpa using List.find?_range'_eq_none.1 h j (by omega) (by omega)
  · obtain ⟨hpj, hmem, hk⟩ := List.find?_range'_eq_some.1 h
    rw [List.mem_range'_1] at hmem
    exact ⟨by omega, by omega, by simpa using hpj, fun k h₁ h₂ => by simpa using hk k (by omega) h₂⟩

end NearestSmaller
