/-
# Range minima by a sparse table

A list is preprocessed so that the least entry of every range is the smaller of
two looked up values: level `k + 1` of the table holds the minima of the ranges
of `2 ^ k + 1` entries, and two of these cover any longer range up to twice their
size (`isMin_query`).

`query` and `build` read `default` where nothing is stored; `checkedQuery` and
`checkedBuild` fail there, and never do (`checkedBuild_eq`, `checkedQuery_eq`).
-/

import Maf.Scan
import Mathlib.Data.List.GetD
import Mathlib.Data.List.Range
import Mathlib.Data.Nat.Log
import Mathlib.Order.Lattice
import Mathlib.Tactic

namespace SparseTable

variable {α : Type*} [LinearOrder α] [Inhabited α]

/-- The least entry of the list `xs` from position `i` to position `j`. -/
def query (xs : List α) (table : List (List α)) (i j : ℕ) : α :=
  if i = j then xs.getD i default
  else if j - i = 1 then min ((table.getD 0 []).getD i default) ((table.getD 0 []).getD j default)
  else
    let k := Nat.log2 (j - i - 1)
    min ((table.getD (k + 1) []).getD i default) ((table.getD (k + 1) []).getD (j - 2 ^ k) default)

/-- Adds the levels for ranges over `length`, `2 * length`, … -/
def extend (xs : List α) : ℕ → ℕ → List (List α) → List (List α)
  | 0, _, table => table
  | fuel + 1, length, table =>
      if length < xs.length then
        extend xs fuel (length * 2)
          (table ++ [(List.range (xs.length - length)).map fun start =>
            query xs table start (start + length)])
      else table

/-- The table of a list: there are fewer levels than entries. -/
def build (xs : List α) : List (List α) := extend xs xs.length 1 [xs]

/-- The value `v` is the least entry from position `i` to position `j`. -/
structure IsMin (xs : List α) (i j : ℕ) (v : α) : Prop where
  attained : ∃ k, i ≤ k ∧ k ≤ j ∧ xs.getD k default = v
  le : ∀ k, i ≤ k → k ≤ j → v ≤ xs.getD k default

/-- A range has one minimum. -/
theorem IsMin.unique {xs : List α} {i j : ℕ} {v w : α} (hv : IsMin xs i j v) (hw : IsMin xs i j w) :
    v = w := by
  obtain ⟨k, hk, hk', rfl⟩ := hv.attained
  obtain ⟨l, hl, hl', rfl⟩ := hw.attained
  exact le_antisymm (hv.le l hl hl') (hw.le k hk hk')

/-- Two ranges that overlap or touch. -/
theorem IsMin.min {xs : List α} {i j k l : ℕ} {v w : α} (hv : IsMin xs i k v) (hw : IsMin xs l j w)
    (hl : l ≤ k + 1) (hil : i ≤ l) (hkj : k ≤ j) : IsMin xs i j (min v w) := by
  refine ⟨?_, fun m hm hm' => ?_⟩
  · rcases le_total v w with h | h
    · obtain ⟨m, hm, hm', he⟩ := hv.attained
      exact ⟨m, hm, hm'.trans hkj, by rw [he, min_eq_left h]⟩
    · obtain ⟨m, hm, hm', he⟩ := hw.attained
      exact ⟨m, hil.trans hm, hm', by rw [he, min_eq_right h]⟩
  · by_cases hmk : m ≤ k
    · exact (min_le_left _ _).trans (hv.le m hm hmk)
    · exact (min_le_right _ _).trans (hw.le m (by omega) hm')

/-- A range of one entry has it as its minimum. -/
theorem isMin_self (xs : List α) (i : ℕ) : IsMin xs i i (xs.getD i default) :=
  ⟨⟨i, le_rfl, le_rfl, rfl⟩, fun k hk hk' => by rw [le_antisymm hk hk']⟩

/-- The first `m` levels above the list itself are right. -/
structure Levels (xs : List α) (m : ℕ) (table : List (List α)) : Prop where
  length : table.length = m + 1
  zero : table.getD 0 [] = xs
  succ : ∀ k < m, ∀ start, start + 2 ^ k < xs.length →
    IsMin xs start (start + 2 ^ k) ((table.getD (k + 1) []).getD start default)

/-- **A query on a table with enough levels.** -/
theorem Levels.isMin_query {xs : List α} {m : ℕ} {table : List (List α)} (h : Levels xs m table)
    {i j : ℕ} (hij : i ≤ j) (hj : j < xs.length) (hm : i + 1 < j → Nat.log2 (j - i - 1) < m) :
    IsMin xs i j (query xs table i j) := by
  unfold query
  split_ifs with h₁ h₂
  · subst h₁
    exact isMin_self xs i
  · rw [h.zero]
    exact (isMin_self xs i).min (isMin_self xs j) (by omega) hij hij
  · dsimp only
    have hne : j - i - 1 ≠ 0 := by omega
    have hlow : 2 ^ Nat.log2 (j - i - 1) ≤ j - i - 1 := Nat.log2_self_le hne
    have hhigh : j - i - 1 < 2 ^ (Nat.log2 (j - i - 1) + 1) := Nat.lt_log2_self
    set k := Nat.log2 (j - i - 1) with hk
    rw [pow_succ] at hhigh
    have hkm : k < m := hm (by omega)
    have hleft := h.succ k hkm i (by omega)
    have hright := h.succ k hkm (j - 2 ^ k) (by omega)
    rw [Nat.sub_add_cancel (by omega)] at hright
    exact hleft.min hright (by omega) (by omega) (by omega)

/-- One more level. -/
theorem Levels.append {xs : List α} {m : ℕ} {table : List (List α)} (h : Levels xs m table) :
    Levels xs (m + 1) (table ++ [(List.range (xs.length - 2 ^ m)).map fun start =>
      query xs table start (start + 2 ^ m)]) := by
  refine ⟨by simp [h.length], ?_, fun k hk start hstart => ?_⟩
  · rw [List.getD_append _ _ _ _ (by rw [h.length]; omega)]
    exact h.zero
  · rcases Nat.lt_succ_iff_lt_or_eq.1 hk with hk | rfl
    · rw [List.getD_append _ _ _ _ (by rw [h.length]; omega)]
      exact h.succ k hk start hstart
    · have hlast : (table ++ [(List.range (xs.length - 2 ^ k)).map fun start =>
          query xs table start (start + 2 ^ k)]).getD (k + 1) [] =
          (List.range (xs.length - 2 ^ k)).map fun start => query xs table start (start + 2 ^ k) := by
        rw [List.getD_append_right _ _ _ _ (by rw [h.length]), h.length]
        simp
      rw [hlast, List.getD_eq_getElem _ _ (by rw [List.length_map, List.length_range]; omega),
        List.getElem_map, List.getElem_range]
      have hpos : 0 < 2 ^ k := Nat.two_pow_pos k
      refine h.isMin_query (by omega) hstart fun hlt => ?_
      have h₁ : start + 2 ^ k - start - 1 ≠ 0 := by omega
      rw [Nat.log2_lt h₁]
      omega

/-- Extending the table covers longer ranges. -/
theorem levels_extend {xs : List α} (fuel : ℕ) {m : ℕ} {table : List (List α)}
    (h : Levels xs m table) :
    ∃ m', Levels xs m' (extend xs fuel (2 ^ m) table) ∧ (m + fuel ≤ m' ∨ xs.length ≤ 2 ^ m') := by
  induction fuel generalizing m table with
  | zero => exact ⟨m, h, Or.inl le_rfl⟩
  | succ fuel ih =>
      unfold extend
      split_ifs with hlt
      · obtain ⟨m', hm', hor⟩ := ih h.append
        rw [pow_succ] at hm'
        exact ⟨m', hm', hor.imp (fun h => by omega) id⟩
      · exact ⟨m, h, Or.inr (by omega)⟩

/-- **The table of a list answers every query.** -/
theorem isMin_query {xs : List α} {i j : ℕ} (hij : i ≤ j) (hj : j < xs.length) :
    IsMin xs i j (query xs (build xs) i j) := by
  have h₀ : Levels xs 0 [xs] := ⟨rfl, rfl, fun k hk => absurd hk (Nat.not_lt_zero k)⟩
  obtain ⟨m, hm, hor⟩ := levels_extend xs.length h₀
  refine hm.isMin_query hij hj fun hlt => ?_
  rw [Nat.log2_lt (by omega)]
  have hpow : m < 2 ^ m := Nat.lt_two_pow_self
  rcases hor with h | h
  · have : 2 ^ xs.length ≤ 2 ^ m := Nat.pow_le_pow_right (by omega) (by omega)
    have : xs.length < 2 ^ xs.length := Nat.lt_two_pow_self
    omega
  · omega

/-! No entry is read that is not there. -/

/-- An entry of the table. -/
def entry {α : Type} (table : List (List α)) (k i : ℕ) : Option α := table[k]?.bind (·[i]?)

section Checked

variable {α : Type} [LinearOrder α] [Inhabited α]

/-- `query`; `none` when an entry is read that is not there. -/
def checkedQuery (xs : List α) (table : List (List α)) (i j : ℕ) : Option α :=
  if i = j then xs[i]?
  else if j - i - 1 = 0 then do
    let rmq1 ← entry table 0 i
    let rmq2 ← entry table 0 j
    some (min rmq1 rmq2)
  else do
    let k := Nat.log2 (j - i - 1)
    let rmq1 ← entry table (k + 1) i
    let rmq2 ← entry table (k + 1) (j - 2 ^ k)
    some (min rmq1 rmq2)

/-- `extend`; `none` when an entry is read that is not there, or out of fuel. -/
def checkedExtend (xs : List α) : ℕ → ℕ → List (List α) → Option (List (List α))
  | 0, _, _ => none
  | fuel + 1, length, table =>
      if length < xs.length then do
        let buffer ← (List.range (xs.length - length)).mapM fun start => checkedQuery xs table start (start + length)
        checkedExtend xs fuel (length * 2) (table ++ [buffer])
      else some table

/-- `build`; `none` when an entry is read that is not there. -/
def checkedBuild (xs : List α) : Option (List (List α)) := checkedExtend xs (xs.length + 1) 1 [xs]

/-- The first `m` levels above the list itself are complete. -/
structure Rows (xs : List α) (m : ℕ) (table : List (List α)) : Prop where
  length : table.length = m + 1
  zero : table.getD 0 [] = xs
  succ : ∀ k < m, (table.getD (k + 1) []).length = xs.length - 2 ^ k

variable {xs : List α} {m : ℕ} {table : List (List α)} {i j : ℕ}

omit [LinearOrder α] in
/-- Entries of the table may be read. -/
theorem Rows.entry_eq (h : Rows xs m table) {k : ℕ} (hk : k < m + 1) (hi : i < (table.getD k []).length) :
    entry table k i = some ((table.getD k []).getD i default) := by
  have hlen : k < table.length := by rwa [h.length]
  rw [List.getD_eq_getElem _ _ hi, entry, List.getElem?_eq_getElem hlen, Option.bind_some]
  rw [List.getD_eq_getElem _ _ hlen] at hi
  rw [List.getElem?_eq_getElem hi]
  simp only [List.getD_eq_getElem _ _ hlen]

/-- A query on a table with enough levels reads entries that are there. -/
theorem Rows.checkedQuery_eq (h : Rows xs m table) (hij : i ≤ j) (hj : j < xs.length)
    (hm : i + 1 < j → Nat.log2 (j - i - 1) < m) : checkedQuery xs table i j = some (query xs table i j) := by
  unfold checkedQuery query
  by_cases h₁ : i = j
  · rw [if_pos h₁, if_pos h₁, List.getD_eq_getElem _ _ (by omega), List.getElem?_eq_getElem]
  · rw [if_neg h₁, if_neg h₁]
    by_cases h₂ : j - i - 1 = 0
    · rw [if_pos h₂, if_pos (by omega), h.entry_eq (by omega) (by rw [h.zero]; omega),
        h.entry_eq (by omega) (by rw [h.zero]; omega)]
      rfl
    · rw [if_neg h₂, if_neg (by omega)]
      have hlow : 2 ^ Nat.log2 (j - i - 1) ≤ j - i - 1 := Nat.log2_self_le h₂
      have hkm : Nat.log2 (j - i - 1) < m := hm (by omega)
      have hrow := h.succ _ hkm
      dsimp only
      rw [h.entry_eq (by omega) (by omega), h.entry_eq (by omega) (by omega)]
      rfl

/-- One more level. -/
theorem Rows.append (h : Rows xs m table) : Rows xs (m + 1) (table ++
    [(List.range (xs.length - 2 ^ m)).map fun start => query xs table start (start + 2 ^ m)]) := by
  refine ⟨by simp [h.length], ?_, fun k hk => ?_⟩
  · rw [List.getD_append _ _ _ _ (by rw [h.length]; omega)]
    exact h.zero
  · rcases Nat.lt_succ_iff_lt_or_eq.1 hk with hk | rfl
    · rw [List.getD_append _ _ _ _ (by rw [h.length]; omega)]
      exact h.succ k hk
    · rw [List.getD_append_right _ _ _ _ (by rw [h.length]), h.length]
      simp

/-- The levels are added one after the other until they suffice. -/
theorem Rows.checkedExtend_eq {fuel : ℕ} (h : Rows xs m table) (hfuel : xs.length ≤ 2 ^ m + fuel) :
    checkedExtend xs (fuel + 1) (2 ^ m) table = some (extend xs fuel (2 ^ m) table) ∧
      ∃ m', Rows xs m' (extend xs fuel (2 ^ m) table) ∧ xs.length ≤ 2 ^ m' := by
  induction fuel generalizing m table with
  | zero =>
      rw [checkedExtend, if_neg (by omega)]
      exact ⟨rfl, m, h, hfuel⟩
  | succ fuel ih =>
      rw [checkedExtend, extend]
      split_ifs with hlt
      · have hrow : ((List.range (xs.length - 2 ^ m)).mapM fun start => checkedQuery xs table start (start + 2 ^ m)) =
            some ((List.range (xs.length - 2 ^ m)).map fun start => query xs table start (start + 2 ^ m)) := by
          refine Scan.mapM_eq_some fun start hstart => ?_
          rw [List.mem_range] at hstart
          have hpos := Nat.two_pow_pos m
          refine h.checkedQuery_eq (by omega) (by omega) fun hlt => ?_
          rw [Nat.log2_lt (by omega)]
          omega
        have hpos := Nat.two_pow_pos m
        rw [hrow]
        have := ih h.append (by rw [pow_succ]; omega)
        rwa [pow_succ] at this
      · exact ⟨rfl, m, h, by omega⟩

/-- A table is built with reads in range only. -/
theorem rows_build (xs : List α) : checkedBuild xs = some (build xs) ∧
    ∃ m, Rows xs m (build xs) ∧ xs.length ≤ 2 ^ m :=
  Rows.checkedExtend_eq (m := 0) ⟨rfl, rfl, fun k hk => absurd hk (Nat.not_lt_zero k)⟩ (by omega)

/-- **Every entry that is read to build the table is there.** -/
theorem checkedBuild_eq (xs : List α) : checkedBuild xs = some (build xs) := (rows_build xs).1

/-- **Every entry that a query reads is there.** -/
theorem checkedQuery_eq (hij : i ≤ j) (hj : j < xs.length) :
    checkedQuery xs (build xs) i j = some (query xs (build xs) i j) := by
  obtain ⟨m, hrows, hm⟩ := (rows_build xs).2
  refine hrows.checkedQuery_eq hij hj fun hlt => ?_
  rw [Nat.log2_lt (by omega)]
  omega

end Checked

/-! The usual layout: level `j` has the ranges of `2 ^ j` entries, for any operation that
combines overlapping ranges. -/

section Levels

variable {β : Type*} [Inhabited β] (op : β → β → β)

/-- The level of the ranges of `2 ^ j` entries; entries whose range leaves the list are not
written. -/
def level (xs : List β) : ℕ → List β
  | 0 => xs
  | j + 1 =>
      let row := level xs j
      (List.range xs.length).map fun i =>
        if i + 2 ^ (j + 1) ≤ xs.length then op (row.getD i default) (row.getD (i + 2 ^ j) default) else default

/-- The first levels. -/
def levels (xs : List β) (logn : ℕ) : List (List β) := (List.range logn).map (level op xs)

/-- The entries from position `l` to position `r`, from two ranges that cover them. -/
def combine (table : List (List β)) (l r : ℕ) : β :=
  let j := Nat.log2 (r - l + 1)
  op ((table.getD j []).getD l default) ((table.getD j []).getD (r + 1 - 2 ^ j) default)

variable {op} {xs : List β} {P : ℕ → ℕ → β → Prop}

/-- **What holds of single entries and of the union of two ranges** that overlap or touch
holds of every entry of the table. -/
theorem level_spec (hone : ∀ i, P i i (xs.getD i default))
    (hop : ∀ i j k l v w, P i k v → P l j w → i ≤ l → l ≤ k + 1 → k ≤ j → P i j (op v w)) {j i : ℕ}
    (hi : i + 2 ^ j ≤ xs.length) : P i (i + 2 ^ j - 1) ((level op xs j).getD i default) := by
  induction j generalizing i with
  | zero => exact hone i
  | succ j ih =>
      have hpos := Nat.two_pow_pos j
      rw [pow_succ] at hi
      rw [level, List.getD_eq_getElem _ _ (by rw [List.length_map, List.length_range]; omega), List.getElem_map,
        List.getElem_range, pow_succ, if_pos hi]
      refine hop _ _ _ _ _ _ (ih (i := i) (by omega)) ?_ (by omega : i ≤ i + 2 ^ j) (by omega) (by omega)
      have := ih (i := i + 2 ^ j) (by omega)
      rwa [show i + 2 ^ j + 2 ^ j - 1 = i + 2 ^ j * 2 - 1 by omega] at this

/-- **The same of every range**, when there are enough levels. -/
theorem combine_spec (hone : ∀ i, P i i (xs.getD i default))
    (hop : ∀ i j k l v w, P i k v → P l j w → i ≤ l → l ≤ k + 1 → k ≤ j → P i j (op v w)) {l r logn : ℕ} (hlr : l ≤ r)
    (hr : r < xs.length) (hlog : xs.length < 2 ^ logn) : P l r (combine op (levels op xs logn) l r) := by
  have hlow : 2 ^ Nat.log2 (r - l + 1) ≤ r - l + 1 := Nat.log2_self_le (by omega)
  have hhigh : r - l + 1 < 2 ^ (Nat.log2 (r - l + 1) + 1) := Nat.lt_log2_self
  have hj : Nat.log2 (r - l + 1) < logn := (Nat.log2_lt (by omega)).2 (by omega)
  rw [pow_succ] at hhigh
  have hpos := Nat.two_pow_pos (Nat.log2 (r - l + 1))
  rw [combine]
  generalize Nat.log2 (r - l + 1) = j at *
  have hrow : (levels op xs logn).getD j [] = level op xs j := by
    rw [levels, List.getD_eq_getElem _ _ (by simpa using hj), List.getElem_map, List.getElem_range]
  rw [hrow]
  have hleft := level_spec hone hop (by omega : l + 2 ^ j ≤ xs.length)
  have hright := level_spec hone hop (by omega : r + 1 - 2 ^ j + 2 ^ j ≤ xs.length)
  rw [Nat.sub_add_cancel (by omega), Nat.add_sub_cancel] at hright
  exact hop _ _ _ _ _ _ hleft hright (by omega) (by omega) (by omega)

end Levels

/-- The value `v` is the greatest entry from position `i` to position `j`. -/
structure IsMax (xs : List α) (i j : ℕ) (v : α) : Prop where
  attained : ∃ k, i ≤ k ∧ k ≤ j ∧ xs.getD k default = v
  le : ∀ k, i ≤ k → k ≤ j → xs.getD k default ≤ v

/-- A range has one maximum. -/
theorem IsMax.unique {xs : List α} {i j : ℕ} {v w : α} (hv : IsMax xs i j v) (hw : IsMax xs i j w) : v = w := by
  obtain ⟨k, hk, hk', rfl⟩ := hv.attained
  obtain ⟨l, hl, hl', rfl⟩ := hw.attained
  exact le_antisymm (hw.le k hk hk') (hv.le l hl hl')

/-- The maximum of a range covered by two. -/
theorem IsMax.max {xs : List α} {i j k l : ℕ} {v w : α} (hv : IsMax xs i k v) (hw : IsMax xs l j w)
    (hl : l ≤ k + 1) (hil : i ≤ l) (hkj : k ≤ j) : IsMax xs i j (max v w) := by
  refine ⟨?_, fun m hm hm' => ?_⟩
  · rcases le_total w v with h | h
    · obtain ⟨m, hm, hm', he⟩ := hv.attained
      exact ⟨m, hm, hm'.trans hkj, by rw [he, max_eq_left h]⟩
    · obtain ⟨m, hm, hm', he⟩ := hw.attained
      exact ⟨m, hil.trans hm, hm', by rw [he, max_eq_right h]⟩
  · by_cases hmk : m ≤ k
    · exact (hv.le m hm hmk).trans (le_max_left _ _)
    · exact (hw.le m (by omega) hm').trans (le_max_right _ _)

/-- **Range minima and maxima** in the usual layout. -/
theorem isMin_combine {xs : List α} {l r logn : ℕ} (hlr : l ≤ r) (hr : r < xs.length) (hlog : xs.length < 2 ^ logn) :
    IsMin xs l r (combine min (levels min xs logn) l r) :=
  combine_spec (P := IsMin xs) (isMin_self xs) (fun _ _ _ _ _ _ hv hw hil hl hkj => hv.min hw hl hil hkj) hlr hr hlog

/-- Two overlapping ranges give the maximum. -/
theorem isMax_combine {xs : List α} {l r logn : ℕ} (hlr : l ≤ r) (hr : r < xs.length) (hlog : xs.length < 2 ^ logn) :
    IsMax xs l r (combine max (levels max xs logn) l r) :=
  combine_spec (P := IsMax xs) (fun i => ⟨⟨i, le_rfl, le_rfl, rfl⟩, fun k hk hk' => by rw [le_antisymm hk hk']⟩)
    (fun _ _ _ _ _ _ hv hw hil hl hkj => hv.max hw hl hil hkj) hlr hr hlog

end SparseTable
